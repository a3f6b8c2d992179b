import ConcurrencyKit.Lists.Slist

/-!
# What `CK_STAILQ` represents

A queue is the list of the elements that its pointers lead through, and `cstqh_last` is the address
of the last pointer. Every operation keeps this, and does to the lists of elements what its name
says.
-/

namespace ConcurrencyKit

open Chain (Loc Cells Lists Linked endFrom Separate Holds Fresh)
open Chain.Loc (head next)

variable {η α : Type} [DecidableEq η] [DecidableEq α]

namespace CkStailq

variable {m : Mem η α} {q : Lists η α} {h h' : η} {l l₁ l₂ : List α} {a b x : α}

/-- What an operation does to the queues. Elements that are inserted are in no queue, and the ones
that an operation is told of are in the queue that it is told of. A head that another queue has
been moved from is not in use. -/
inductive Next : Lists η α → Op η α → Lists η α → Prop
  | init {q : Lists η α} (h : η) : Next q (.init h) (Function.update q h (some []))
  | insertAfter {q : Lists η α} {h : η} {l₁ l₂ : List α} {a x : α}
      (hq : q h = some (l₁ ++ a :: l₂)) (hx : Fresh q x) :
      Next q (.insertAfter h a x) (Function.update q h (some (l₁ ++ a :: x :: l₂)))
  | insertHead {q : Lists η α} {h : η} {l : List α} {x : α} (hq : q h = some l) (hx : Fresh q x) :
      Next q (.insertHead h x) (Function.update q h (some (x :: l)))
  | insertTail {q : Lists η α} {h : η} {l : List α} {x : α} (hq : q h = some l) (hx : Fresh q x) :
      Next q (.insertTail h x) (Function.update q h (some (l ++ [x])))
  | removeAfter {q : Lists η α} {h : η} {l₁ l₂ : List α} {a b : α}
      (hq : q h = some (l₁ ++ a :: b :: l₂)) :
      Next q (.removeAfter h a) (Function.update q h (some (l₁ ++ a :: l₂)))
  | remove {q : Lists η α} {h : η} {l₁ l₂ : List α} {x : α} (hq : q h = some (l₁ ++ x :: l₂)) :
      Next q (.remove h x) (Function.update q h (some (l₁ ++ l₂)))
  | removeHead {q : Lists η α} {h : η} {l : List α} {x : α} (hq : q h = some (x :: l)) :
      Next q (.removeHead h) (Function.update q h (some l))
  | concat {q : Lists η α} {head1 head2 : η} {l₁ l₂ : List α} (hne : head1 ≠ head2)
      (h₁ : q head1 = some l₁) (h₂ : q head2 = some l₂) :
      Next q (.concat head1 head2)
        (Function.update (Function.update q head2 (some [])) head1 (some (l₁ ++ l₂)))
  | move {q : Lists η α} {head1 head2 : η} {l : List α} (hq : q head2 = some l) :
      Next q (.move head1 head2)
        (Function.update (Function.update q head2 none) head1 (some l))
  | swap {q : Lists η α} {head1 head2 : η} {l₁ l₂ : List α} (h₁ : q head1 = some l₁)
      (h₂ : q head2 = some l₂) :
      Next q (.swap head1 head2)
        (Function.update (Function.update q head1 (some l₂)) head2 (some l₁))

/-- The memory holds the queues. -/
structure Represents (m : Mem η α) (q : Lists η α) : Prop where
  separate : Separate q
  holds : Holds m.cell q
  last : ∀ h l, q h = some l → m.last h = endFrom (head h) l

/-- An operation can be carried out, and does to the queues what it should do. -/
def Carries (m : Mem η α) (op : Op η α) (q : Lists η α) : Prop :=
  ∃ fs fuel₀, (∀ fuel, fuel₀ ≤ fuel → script fuel m op = some fs) ∧
    ∃ m', fs.run m = some m' ∧ Represents m' q

omit [DecidableEq η] [DecidableEq α] in
/-- Whether there is anything behind an element is what its pointer says. -/
theorem Represents.cell_eq_none (hr : Represents m q) (hq : q h = some (l₁ ++ l₂)) :
    m.cell (endFrom (head h) l₁) = none ↔ l₂ = [] :=
  Chain.linked_nil_iff (hr.holds.split hq)

omit [DecidableEq η] [DecidableEq α] in
/-- `CK_STAILQ_MOVE` asks whether the queue is empty by looking at its `cstqh_last`. -/
theorem Represents.last_eq_head (hr : Represents m q) (hq : q h = some l) :
    m.last h = head h ↔ m.cell (head h) = none := by
  rw [hr.last h l hq, Chain.linked_nil_iff (hr.holds h l hq)]
  cases l with
  | nil => exact iff_of_true rfl rfl
  | cons a l =>
    refine iff_of_false (fun heq => ?_) (by simp)
    rcases Chain.endFrom_eq (next a : Loc η α) l with hend | ⟨x, -, hend⟩
    · exact absurd (hend.symm.trans heq) (by simp)
    · exact absurd (hend.symm.trans heq) (by simp)

/-! ## One element -/

/-- The memory after an element has been linked in at a cell. -/
def link (h : η) (d : Loc η α) (x : α) (l₂ : List α) (m : Mem η α) : Mem η α where
  cell := Function.update (Function.update m.cell (next x) (m.cell d)) d (some x)
  last := if l₂ = [] then Function.update m.last h (next x) else m.last

/-- The memory after the element behind a cell has been linked out. -/
def unlink (h : η) (d : Loc η α) (x : α) (l₂ : List α) (m : Mem η α) : Mem η α where
  cell := Function.update m.cell d (m.cell (next x))
  last := if l₂ = [] then Function.update m.last h d else m.last

theorem Represents.link (hr : Represents m q) (hq : q h = some (l₁ ++ l₂)) (hx : Fresh q x) :
    Represents (CkStailq.link h (endFrom (head h) l₁) x l₂ m)
      (Function.update q h (some (l₁ ++ x :: l₂))) where
  separate := hr.separate.insert hq hx
  holds := by
    have hx₁ : x ∉ l₁ := fun hmem => hx h _ hq (List.mem_append_left l₂ hmem)
    have hne : (next x : Loc η α) ≠ endFrom (head h) l₁ :=
      Chain.ne_endFrom (by simp) (Chain.outside_next hx₁)
    refine (hr.holds.fill hx _).link hr.separate hq hx ?_
    rw [Function.update_self, Function.update_of_ne hne.symm]
  last h' l hl := by
    by_cases hne : h' = h
    · subst hne
      rw [Function.update_self] at hl
      cases hl
      rw [Chain.endFrom_append, Chain.endFrom_cons]
      simp only [CkStailq.link]
      split
      case isTrue hnil =>
        rw [hnil, Function.update_self]
        rfl
      case isFalse hnil =>
        rw [hr.last h' _ hq, Chain.endFrom_append]
        exact Chain.endFrom_of_ne_nil _ _ hnil
    · rw [Function.update_of_ne hne] at hl
      simp only [CkStailq.link]
      split
      case isTrue => rw [Function.update_of_ne hne, hr.last h' l hl]
      case isFalse => exact hr.last h' l hl

theorem Represents.unlink (hr : Represents m q) (hq : q h = some (l₁ ++ x :: l₂)) :
    Represents (CkStailq.unlink h (endFrom (head h) l₁) x l₂ m)
      (Function.update q h (some (l₁ ++ l₂))) where
  separate := hr.separate.remove hq
  holds := hr.holds.unlink hr.separate hq
  last h' l hl := by
    by_cases hne : h' = h
    · subst hne
      rw [Function.update_self] at hl
      cases hl
      rw [Chain.endFrom_append]
      simp only [CkStailq.unlink]
      split
      case isTrue hnil =>
        rw [hnil, Function.update_self]
        rfl
      case isFalse hnil =>
        rw [hr.last h' _ hq, Chain.endFrom_append, Chain.endFrom_cons]
        exact Chain.endFrom_of_ne_nil _ _ hnil
    · rw [Function.update_of_ne hne] at hl
      simp only [CkStailq.unlink]
      split
      case isTrue => rw [Function.update_of_ne hne, hr.last h' l hl]
      case isFalse => exact hr.last h' l hl

/-- The stores of an insertion. -/
theorem link_run (hr : Represents m q) (hq : q h = some (l₁ ++ l₂)) (hx : Fresh q x) :
    Script.run [fun m => some (store (next x) (m.cell (endFrom (head h) l₁)) m),
      fun m => some (store (endFrom (head h) l₁) (some x) m),
      setLastIf (next x) h (next x)] m =
        some (link h (endFrom (head h) l₁) x l₂ m) := by
  have hx₁ : x ∉ l₁ := fun hmem => hx h _ hq (List.mem_append_left l₂ hmem)
  have hne : (next x : Loc η α) ≠ endFrom (head h) l₁ :=
    Chain.ne_endFrom (by simp) (Chain.outside_next hx₁)
  have hnil := hr.cell_eq_none hq
  simp only [Script.run, Option.bind_some, setLastIf, store, setLast, link,
    Function.update_of_ne hne, Function.update_self, hnil]
  split <;> rfl

/-- The stores of a removal at a cell, which is what `CK_STAILQ_REMOVE_HEAD` and
`CK_STAILQ_REMOVE_AFTER` have in common. -/
def removeAt (h : η) (d : Loc η α) : Script (Mem η α) :=
  [fun m => (m.cell d).map fun b => store d (m.cell (next b)) m, setLastIf d h d]

theorem removeAt_run (hr : Represents m q) (hq : q h = some (l₁ ++ x :: l₂)) :
    (removeAt h (endFrom (head h) l₁)).run m =
      some (unlink h (endFrom (head h) l₁) x l₂ m) := by
  have hcell := hr.holds.cell_cons hq
  have hnil : m.cell (next x) = none ↔ l₂ = [] := Chain.linked_nil_iff (hr.holds.cell_next hq)
  simp only [removeAt, Script.run, hcell, Option.map_some, Option.bind_some, setLastIf, store,
    setLast, unlink, Function.update_self, hnil]
  split <;> rfl

/-- `CK_STAILQ_REMOVE` comes to the cell that points to the element. -/
theorem script_remove (hr : Represents m q) (hq : q h = some (l₁ ++ x :: l₂)) :
    ∃ n, ∀ fuel, n ≤ fuel →
      script fuel m (.remove h x) = some (removeAt h (endFrom (head h) l₁)) := by
  rcases l₁.eq_nil_or_concat with rfl | ⟨l, a, rfl⟩
  case inl =>
    have hfirst : m.cell (head h) = some x := hr.holds.cell_cons hq
    exact ⟨0, fun _ _ => if_pos hfirst⟩
  case inr =>
    rw [List.concat_eq_append] at hq ⊢
    have hnot : x ∉ l ++ [a] := fun hx =>
      (List.disjoint_of_nodup_append (hr.separate.nodup h _ hq)) hx List.mem_cons_self
    have hlinked : Linked m.cell (head h) (l ++ a :: x :: l₂) := by simpa using hr.holds h _ hq
    refine ⟨l.length + 1, fun fuel hfuel => ?_⟩
    rw [script, if_neg (first_ne hlinked hnot), walk_eq hlinked hnot hfuel, Chain.endFrom_concat]
    rfl

/-! ## Whole queues -/

/-- The memory after a head has been given a chain. -/
def take (h : η) (v : Option α) (d : Loc η α) (m : Mem η α) : Mem η α where
  cell := Function.update m.cell (head h) v
  last := Function.update m.last h d

/-- A head that gets a chain of elements which are in no other queue. -/
theorem Represents.take {v : Option α} {d : Loc η α} (hr : Represents m q) (hl : l.Nodup)
    (hfresh : ∀ x ∈ l, Fresh q x)
    (hlinked : Linked (Function.update m.cell (head h) v) (head h) l)
    (hd : d = endFrom (head h) l) :
    Represents (CkStailq.take h v d m) (Function.update q h (some l)) where
  separate := hr.separate.set hl fun x hx => .inr (hfresh x hx)
  holds := hr.holds.set (fun h' l' hne _ => ⟨by simpa using Ne.symm hne, Chain.outside_head h l'⟩)
    hlinked
  last h' k hk := by
    by_cases hne : h' = h
    · subst hne
      rw [Function.update_self] at hk
      cases hk
      simp only [CkStailq.take, Function.update_self, hd]
    · rw [Function.update_of_ne hne] at hk
      simp only [CkStailq.take]
      rw [Function.update_of_ne hne, hr.last h' k hk]

omit [DecidableEq α] in
/-- A head goes out of use. -/
theorem Represents.drop (hr : Represents m q) (h : η) :
    Represents m (Function.update q h none) where
  separate := hr.separate.drop h
  holds := hr.holds.drop h
  last h' k hk := by
    by_cases hne : h' = h
    · subst hne
      simp at hk
    · rw [Function.update_of_ne hne] at hk
      exact hr.last h' k hk

omit [DecidableEq α] [DecidableEq η] in
/-- What `cstqh_last` has to be for the chain of one head, seen from another one. -/
theorem Represents.last_copy (hr : Represents m q) (hq : q h' = some l) (h : η) :
    (if m.cell (head h') = none then head h else m.last h') = endFrom (head h) l := by
  have hnil : m.cell (head h') = none ↔ l = [] := Chain.linked_nil_iff (hr.holds h' l hq)
  split
  case isTrue hnone =>
    rw [hnil.mp hnone]
    rfl
  case isFalse hsome =>
    rw [hr.last h' l hq]
    exact Chain.endFrom_of_ne_nil _ _ fun hl => hsome (hnil.mpr hl)

theorem Represents.init (hr : Represents m q) (h : η) :
    Represents (CkStailq.take h none (head h) m) (Function.update q h (some [])) := by
  refine hr.take List.nodup_nil (by simp) ?_ rfl
  exact Function.update_self ..

/-- The memory after the chain of one head has been linked in at the end of another one. -/
def append (head1 head2 : η) (m : Mem η α) : Mem η α where
  cell := Function.update m.cell (m.last head1) (m.cell (head head2))
  last := Function.update m.last head1 (m.last head2)

theorem Represents.append {head1 head2 : η} (hr : Represents m q) (hne : head1 ≠ head2)
    (h₁ : q head1 = some l₁) (h₂ : q head2 = some l₂) (hnil : l₂ ≠ []) :
    Represents (CkStailq.append head1 head2 m)
      (Function.update (Function.update q head2 none) head1 (some (l₁ ++ l₂))) := by
  have hdrop := hr.drop head2
  have h₁' : Function.update q head2 none head1 = some l₁ := by rwa [Function.update_of_ne hne]
  have hend := hr.last head1 l₁ h₁
  have hout := (hr.separate.elsewhere h₁ (fun _ hx => hx) hne.symm h₂).2
  have hfresh : ∀ x ∈ l₂, Fresh (Function.update q head2 none) x :=
    fun x hx => hr.separate.fresh h₂ (by simp) hx
  have hnodup : (l₁ ++ l₂).Nodup :=
    List.Nodup.append (hr.separate.nodup _ _ h₁) (hr.separate.nodup _ _ h₂)
      fun x hx₁ hx₂ => hfresh x hx₂ _ _ h₁' hx₁
  refine ⟨hdrop.separate.set hnodup fun x hx => ?_, ?_, fun h' k hk => ?_⟩
  · rcases List.mem_append.mp hx with hx | hx
    · exact .inl ⟨l₁, h₁', hx⟩
    · exact .inr (hfresh x hx)
  · simp only [CkStailq.append, hend]
    refine hdrop.holds.set
      (fun h' l' hne' hq' => hdrop.separate.elsewhere h₁' (fun _ hx => hx) hne' hq') ?_
    have hl₁ : Linked m.cell (head head1) (l₁ ++ []) := by
      rw [List.append_nil]
      exact hr.holds _ _ h₁
    refine hl₁.rejoin (Chain.outside_head _ _) (hr.separate.nodup _ _ h₁) ?_
    refine (hr.holds _ _ h₂).copy (Function.update_self ..) fun x hx => ?_
    exact Function.update_of_ne (Ne.symm (hout x hx)) ..
  · by_cases hh : h' = head1
    · subst hh
      rw [Function.update_self] at hk
      cases hk
      simp only [CkStailq.append, Function.update_self]
      rw [hr.last _ _ h₂, Chain.endFrom_append]
      exact Chain.endFrom_of_ne_nil _ _ hnil
    · rw [Function.update_of_ne hh] at hk
      simp only [CkStailq.append]
      rw [Function.update_of_ne hh, hdrop.last h' k hk]

/-- The memory after a head has been given the chain of another one. -/
theorem Represents.move {head1 head2 : η} (hr : Represents m q) (hq : q head2 = some l) :
    Represents
      (CkStailq.take head1 (m.cell (head head2))
        (if m.cell (head head2) = none then head head1 else m.last head2) m)
      (Function.update (Function.update q head2 none) head1 (some l)) := by
  refine (hr.drop head2).take (hr.separate.nodup _ _ hq)
    (fun x hx => hr.separate.fresh hq (by simp) hx) ?_ (hr.last_copy hq head1)
  refine (hr.holds _ _ hq).copy (Function.update_self ..) fun x _ => ?_
  exact Function.update_of_ne (by simp) ..

theorem Represents.swap {head1 head2 : η} (hr : Represents m q) (h₁ : q head1 = some l₁)
    (h₂ : q head2 = some l₂) :
    Represents
      (CkStailq.take head2 (m.cell (head head1))
        (if m.cell (head head1) = none then head head2 else m.last head1)
        (CkStailq.take head1 (m.cell (head head2))
          (if m.cell (head head2) = none then head head1 else m.last head2) m))
      (Function.update (Function.update q head1 (some l₂)) head2 (some l₁)) := by
  have hdrop := (hr.drop head1).drop head2
  have hone := hdrop.take (h := head1) (l := l₂) (v := m.cell (head head2))
    (hr.separate.nodup _ _ h₂) (fun x hx => hr.separate.fresh_without h₁ h₂ (.inr hx))
    ((hr.holds _ _ h₂).copy (Function.update_self ..) fun x _ =>
      Function.update_of_ne (by simp) ..)
    (hr.last_copy h₂ head1)
  have hcells : ∀ x, Function.update (Function.update m.cell (head head1) (m.cell (head head2)))
      (head head2) (m.cell (head head1)) (next x) = m.cell (next x) := by
    intro x
    rw [Function.update_of_ne (by simp), Function.update_of_ne (by simp)]
  have htwo := (hone.drop head2).take (h := head2) (l := l₁) (v := m.cell (head head1))
    (hr.separate.nodup _ _ h₁) (fun x hx => hr.separate.fresh_exchange h₁ h₂ hx)
    ((hr.holds _ _ h₁).copy (Function.update_self ..) fun x _ => hcells x)
    (hr.last_copy h₁ head2)
  rwa [Chain.exchange_eq] at htwo

/-- The stores of an exchange. -/
theorem swap_run (m : Mem η α) (head1 head2 : η) :
    Script.run
      [fun m => some (store (head head1) (m.cell (head head2)) m),
        fun m => some (setLast head1 (m.last head2) m),
        fun n => some (store (head head2) (m.cell (head head1)) n),
        fun n => some (setLast head2 (m.last head1) n),
        setLastIf (head head1) head1 (head head1),
        setLastIf (head head2) head2 (head head2)] m =
      some (take head2 (m.cell (head head1))
        (if m.cell (head head1) = none then head head2 else m.last head1)
        (take head1 (m.cell (head head2))
          (if m.cell (head head2) = none then head head1 else m.last head2) m)) := by
  simp only [Script.run, Option.bind_some, setLastIf, store, setLast, take]
  by_cases hne : head1 = head2
  case pos =>
    subst hne
    simp only [Function.update_self, Function.update_idem]
    by_cases hnone : m.cell (head head1) = none
    · simp [hnone]
    · simp [hnone]
  case neg =>
    have hcell : (head head1 : Loc η α) ≠ head head2 := by simpa using hne
    simp only [Function.update_of_ne hcell, Function.update_self]
    have hlast := Function.update_comm (Ne.symm hne) (m.last head1) (head head1 : Loc η α)
      (Function.update m.last head1 (m.last head2))
    by_cases hone : m.cell (head head2) = none <;> by_cases htwo : m.cell (head head1) = none
    all_goals
      simp only [hone, htwo, if_true, if_false, hlast, Function.update_idem, Function.update_self]

/-! ## Every operation -/

theorem carries {q' : Lists η α} {op : Op η α} (hr : Represents m q) (hn : Next q op q') :
    Carries m op q' := by
  cases hn with
  | init h => exact ⟨_, 0, fun _ _ => rfl, _, rfl, hr.init h⟩
  | @insertAfter h l₁ l₂ a x hq hx =>
    have hq' : q h = some ((l₁ ++ [a]) ++ l₂) := by simpa using hq
    have hrun := link_run hr hq' hx
    have hrep := hr.link hq' hx
    rw [Chain.endFrom_concat] at hrun hrep
    rw [List.append_assoc, List.singleton_append] at hrep
    exact ⟨_, 0, fun _ _ => rfl, _, hrun, hrep⟩
  | @insertHead h l x hq hx =>
    have hq' : q h = some ([] ++ l) := hq
    exact ⟨_, 0, fun _ _ => rfl, _, link_run hr hq' hx, hr.link hq' hx⟩
  | @insertTail h l x hq hx =>
    have hq' : q h = some (l ++ []) := by simpa using hq
    refine ⟨_, 0, fun _ _ => rfl, _, ?_, hr.link hq' hx⟩
    have hnone := (hr.cell_eq_none hq').mpr rfl
    simp only [Script.run, Option.bind_some, store, setLast, link, hr.last h l hq, hnone,
      if_true]
  | @removeAfter h l₁ l₂ a b hq =>
    have hq' : q h = some ((l₁ ++ [a]) ++ b :: l₂) := by simpa using hq
    have hrun := removeAt_run hr hq'
    have hrep := hr.unlink hq'
    rw [Chain.endFrom_concat] at hrun hrep
    rw [List.append_assoc, List.singleton_append] at hrep
    exact ⟨_, 0, fun _ _ => rfl, _, hrun, hrep⟩
  | remove hq =>
    obtain ⟨n, hscript⟩ := script_remove hr hq
    exact ⟨_, n, hscript, _, removeAt_run hr hq, hr.unlink hq⟩
  | @removeHead h l x hq =>
    have hq' : q h = some ([] ++ x :: l) := hq
    exact ⟨_, 0, fun _ _ => rfl, _, removeAt_run hr hq', hr.unlink hq'⟩
  | @concat head1 head2 l₁ l₂ hne h₁ h₂ =>
    have hnil : m.cell (head head2) = none ↔ l₂ = [] := Chain.linked_nil_iff (hr.holds _ _ h₂)
    by_cases hl : l₂ = []
    case pos =>
      -- nothing is stored, and the queues are what they were
      have hq :
          Function.update (Function.update q head2 (some [])) head1 (some (l₁ ++ l₂)) = q := by
        rw [hl, List.append_nil, ← h₁, ← hl, ← h₂, Function.update_eq_self,
          Function.update_eq_self]
      refine ⟨[], 0, fun _ _ => ?_, m, rfl, hq.symm ▸ hr⟩
      rw [script, if_neg (not_not.mpr (hnil.mpr hl))]
    case neg =>
      have hrep := (hr.append hne h₁ h₂ hl).init head2
      rw [Function.update_comm hne.symm, Function.update_idem, Function.update_comm hne] at hrep
      have hsome : m.cell (head head2) ≠ none := fun hnone => hl (hnil.mp hnone)
      exact ⟨_, 0, fun _ _ => congrArg some (if_pos hsome), _, rfl, hrep⟩
  | @move head1 head2 l hq =>
    refine ⟨_, 0, fun _ _ => rfl, _, ?_, hr.move hq⟩
    have hsame : Function.update m.last head1 (m.last head2) head2 = m.last head2 := by
      by_cases hne : head2 = head1
      · rw [hne, Function.update_self]
      · rw [Function.update_of_ne hne]
    simp only [Script.run, Option.bind_some, store, setLast, take, hsame, hr.last_eq_head hq]
    split
    case isTrue => rw [Function.update_idem]
    case isFalse => rfl
  | @swap head1 head2 l₁ l₂ h₁ h₂ =>
    exact ⟨_, 0, fun _ _ => rfl, _, swap_run m head1 head2, hr.swap h₁ h₂⟩

end CkStailq

end ConcurrencyKit
