import ConcurrencyKit.Lists.Edits
import ConcurrencyKit.Misc.Threads

/-!
# Readers and a writer

One writer changes a list by insertions and removals, one store at a time, while any number of
readers go through it: `CK_SLIST_FOREACH`, `CK_STAILQ_FOREACH` and `CK_LIST_FOREACH`
(`ck_queue.h:151-154`, `ck_queue.h:267-270`, `ck_queue.h:387-390`), which load one pointer at a
time. The operations on `CK_SLIST` and the others are those of one list.

Next to the memory a `Shared` keeps what the pointers have been since each traversal has begun. An
element that is inserted has not been in the list since then, as far as a traversal is in progress.
-/

namespace ConcurrencyKit.Foreach

open Chain (Loc Cells Lists Linked endFrom Tracks)
open Chain.Loc (head next)

/-- The kinds of lists. -/
inductive Kind where
  | slist
  | stailq
  | list
  deriving DecidableEq, Repr

namespace Kind

/-- The memory of one list. -/
abbrev Mem (α : Type) : Kind → Type
  | slist => CkSlist.Mem Unit α
  | stailq => CkStailq.Mem Unit α
  | list => CkList.Mem Unit α

/-- The operations on it. -/
abbrev Op (α : Type) : Kind → Type
  | slist => CkSlist.Op Unit α
  | stailq => CkStailq.Op Unit α
  | list => CkList.Op Unit α

variable {α : Type}

/-- The pointers that readers follow. -/
def cells : (k : Kind) → k.Mem α → Cells Unit α
  | slist => id
  | stailq => CkStailq.Mem.cell
  | list => CkList.Mem.cell

/-- The element that an operation inserts. -/
def inserts : (k : Kind) → k.Op α → Option α
  | slist => CkSlist.Op.inserts
  | stailq => CkStailq.Op.inserts
  | list => CkList.Op.inserts

/-- Whether an operation is an insertion or a removal. -/
def edits : (k : Kind) → k.Op α → Bool
  | slist => fun _ => true
  | stailq => CkStailq.Op.edits
  | list => CkList.Op.edits

variable [DecidableEq α]

/-- The stores of an operation. -/
def script (fuel : Nat) : (k : Kind) → k.Mem α → k.Op α → Option (Script (k.Mem α))
  | slist => CkSlist.script fuel
  | stailq => CkStailq.script fuel
  | list => fun m op => some (CkList.script m op)

/-- What an operation does to the list. -/
def Next : (k : Kind) → Lists Unit α → k.Op α → Lists Unit α → Prop
  | slist => CkSlist.Next
  | stailq => CkStailq.Next
  | list => CkList.Next

/-- The memory holds the list. -/
def Represents : (k : Kind) → k.Mem α → Lists Unit α → Prop
  | slist => CkSlist.Represents
  | stailq => CkStailq.Represents
  | list => CkList.Represents

end Kind

variable {ρ α : Type}

/-- The list, and for every traversal in progress the pointers that there have been since it has
begun. -/
structure Shared (k : Kind) (ρ α : Type) where
  moments : ρ → Option (List (Cells Unit α))
  list : k.Mem α

/-- Where a thread stands. -/
inductive Pc (k : Kind) (α : Type) where
  | idle
  /-- The writer has these stores to make. -/
  | writing (stores : Script (k.Mem α))
  /-- A reader has been at the elements `visited`, and follows the pointer at `d` next. -/
  | reading (d : Loc Unit α) (visited : List α)
  /-- A reader has come to the end. The pointers were `moments` meanwhile. -/
  | done (visited : List α) (moments : List (Cells Unit α))

namespace Shared

variable {k : Kind}

/-- A store of the writer. -/
def write (list : k.Mem α) (m : Shared k ρ α) : Shared k ρ α where
  moments r := (m.moments r).map (· ++ [k.cells list])
  list := list

variable [DecidableEq ρ]

/-- A traversal begins. -/
def enter (r : ρ) (m : Shared k ρ α) : Shared k ρ α :=
  { m with moments := Function.update m.moments r (some [k.cells m.list]) }

/-- A traversal ends. -/
def leave (r : ρ) (m : Shared k ρ α) : Shared k ρ α :=
  { m with moments := Function.update m.moments r none }

end Shared

/-- No traversal in progress has had the element in its list. -/
def Unseen {k : Kind} (m : Shared k ρ α) (x : α) : Prop :=
  ∀ r moments, m.moments r = some moments → ∀ c ∈ moments, ∀ l, Linked c (head ()) l → x ∉ l

variable [DecidableEq ρ] [DecidableEq α]

/-- One step of the writer, which is the thread `none`, or of a reader. -/
inductive Step (k : Kind) :
    Option ρ → Shared k ρ α → Pc k α → Shared k ρ α → Pc k α → Prop
  | edit {m : Shared k ρ α} {op : k.Op α} {l : List α} {q : Lists Unit α}
      {stores : Script (k.Mem α)} (hedits : k.edits op)
      (hlinked : Linked (k.cells m.list) (head ()) l) (hnext : k.Next (fun _ => some l) op q)
      (hunseen : ∀ x, k.inserts op = some x → Unseen m x)
      (hscript : ∃ n, ∀ fuel, n ≤ fuel → k.script fuel m.list op = some stores) :
      Step k none m .idle m (.writing stores)
  | store {m : Shared k ρ α} {f : k.Mem α → Option (k.Mem α)} {stores : Script (k.Mem α)}
      {list : k.Mem α} (h : f m.list = some list) :
      Step k none m (.writing (f :: stores)) (m.write list) (.writing stores)
  | edited (m : Shared k ρ α) : Step k none m (.writing []) m .idle
  | start (r : ρ) (m : Shared k ρ α) :
      Step k (some r) m .idle (m.enter r) (.reading (head ()) [])
  | visit (r : ρ) {m : Shared k ρ α} {d : Loc Unit α} {visited : List α} {x : α}
      (h : k.cells m.list d = some x) :
      Step k (some r) m (.reading d visited) m (.reading (next x) (visited ++ [x]))
  | finish (r : ρ) {m : Shared k ρ α} {d : Loc Unit α} {visited : List α}
      {moments : List (Cells Unit α)} (h : k.cells m.list d = none)
      (hmoments : m.moments r = some moments) :
      Step k (some r) m (.reading d visited) (m.leave r) (.done visited moments)
  | again (r : ρ) (m : Shared k ρ α) (visited : List α) (moments : List (Cells Unit α)) :
      Step k (some r) m (.done visited moments) m .idle

/-! ## The writer -/

open Script (Follows)

omit [DecidableEq α] in
/-- The list in the memory. -/
theorem Kind.Represents.linked {k : Kind} {m : k.Mem α} {l : List α}
    (hr : k.Represents m (fun _ => some l)) : Linked (k.cells m) (head ()) l ∧ l.Nodup := by
  cases k with
  | slist =>
    exact ⟨CkSlist.Represents.holds hr () l rfl, (CkSlist.Represents.separate hr).1 () l rfl⟩
  | stailq =>
    exact ⟨CkStailq.Represents.holds hr () l rfl, (CkStailq.Represents.separate hr).1 () l rfl⟩
  | list => exact ⟨CkList.Represents.holds hr () l rfl, (CkList.Represents.separate hr).1 () l rfl⟩

/-- An insertion or a removal can be carried out, each store changes the list, and at the end the
memory holds a list again. -/
theorem Kind.Represents.follows {k : Kind} {m : k.Mem α} {l : List α} {op : k.Op α}
    {q : Lists Unit α} {stores : Script (k.Mem α)} (hr : k.Represents m (fun _ => some l))
    (hedits : k.edits op) (hnext : k.Next (fun _ => some l) op q)
    (hscript : ∃ n, ∀ fuel, n ≤ fuel → k.script fuel m op = some stores) :
    ∃ l', Follows k.cells () (k.inserts op) m l stores l' ∧
      (∀ x, k.inserts op = some x → x ∉ l) ∧
      ∃ m', stores.run m = some m' ∧ k.Represents m' (fun _ => some l') := by
  -- the loop of a removal ends in one way only
  have hsame : ∀ fs n, (∀ fuel, n ≤ fuel → k.script fuel m op = some fs) → fs = stores := by
    intro fs n hfs
    obtain ⟨n', hscript⟩ := hscript
    exact Option.some.inj ((hfs _ (le_max_left n n')).symm.trans (hscript _ (le_max_right n n')))
  have hlist : ∀ l', q () = some l' → q = fun _ => some l' := fun l' hq => funext fun _ => hq
  cases k with
  | slist =>
    obtain ⟨_, _, l', ⟨⟩, hq, hfresh, hfollows⟩ := CkSlist.follows hr hnext hscript
    obtain ⟨fs, n, hfs, m', hrun, hr'⟩ := CkSlist.carries hr hnext
    exact ⟨l', hfollows, fun x hx => hfresh x hx () l rfl, m', hsame fs n hfs ▸ hrun,
      hlist l' hq ▸ hr'⟩
  | stailq =>
    obtain ⟨_, _, l', ⟨⟩, hq, hfresh, hfollows⟩ := CkStailq.follows hr hnext hedits hscript
    obtain ⟨fs, n, hfs, m', hrun, hr'⟩ := CkStailq.carries hr hnext
    exact ⟨l', hfollows, fun x hx => hfresh x hx () l rfl, m', hsame fs n hfs ▸ hrun,
      hlist l' hq ▸ hr'⟩
  | list =>
    obtain ⟨_, _, l', ⟨⟩, hq, hfresh, hfollows⟩ := CkList.follows hr hnext hedits
    obtain ⟨m', hrun, hr'⟩ := CkList.carries hr hnext
    have hfs : CkList.script m op = stores := hsame _ 0 fun _ _ => rfl
    exact ⟨l', hfs ▸ hfollows, fun x hx => hfresh x hx () l rfl, m', hfs ▸ hrun,
      hlist l' hq ▸ hr'⟩

/-! ## The invariant -/

/-- The lists that the pointers have led through. -/
def states (moments : List (Cells Unit α)) : Set (List α) :=
  {l | ∃ c ∈ moments, Linked c (head ()) l}

/-- The pointers lead through a list. -/
def Inv {k : Kind} (m : Shared k ρ α) : Prop :=
  ∃ l, Linked (k.cells m.list) (head ()) l ∧ l.Nodup

/-- What a completed traversal has done. -/
structure Complete (visited : List α) (moments : List (Cells Unit α)) : Prop where
  all : ∀ x, (∀ c ∈ moments, ∀ l, Linked c (head ()) l → x ∈ l) → x ∈ visited
  nodup : visited.Nodup
  order : ∀ c ∈ moments, ∃ l, Linked c (head ()) l ∧
    visited.filter (· ∈ l) = l.filter (· ∈ visited)

/-- A traversal in progress. -/
structure Reads {k : Kind} (m : Shared k ρ α) (moments : List (Cells Unit α)) (d : Loc Unit α)
    (visited : List α) : Prop where
  now : k.cells m.list ∈ moments
  linked : ∀ c ∈ moments, ∃ l, Linked c (head ()) l
  tracks : Tracks () (k.cells m.list) (states moments) d visited

/-- The writer has these stores to make. -/
def Writes {k : Kind} (m : Shared k ρ α) (stores : Script (k.Mem α)) : Prop :=
  ∃ new l l', Linked (k.cells m.list) (head ()) l ∧ l.Nodup ∧
    Follows k.cells () new m.list l stores l' ∧
    (∃ m', stores.run m.list = some m' ∧ k.Represents m' (fun _ => some l')) ∧
    ∀ x, new = some x → x ∉ l ∧ Unseen m x

/-- What the program counter of a thread says about the memory. -/
def At {k : Kind} (i : Option ρ) (m : Shared k ρ α) (p : Pc k α) : Prop :=
  match i, p with
  | none, .idle => ∃ l, k.Represents m.list (fun _ => some l)
  | none, .writing stores => Writes m stores
  | some _, .idle => True
  | some r, .reading d visited => ∃ moments, m.moments r = some moments ∧ Reads m moments d visited
  | some _, .done visited moments => Complete visited moments
  | _, _ => False

variable {k : Kind}

omit [DecidableEq α] in
theorem states_singleton {c : Cells Unit α} {l : List α} (hl : Linked c (head ()) l) :
    states [c] = {l} := by
  ext j
  constructor
  · rintro ⟨c', hc', hj⟩
    rw [List.mem_singleton.mp hc'] at hj
    exact hj.unique hl
  · rintro rfl
    exact ⟨c, List.mem_cons_self, hl⟩

omit [DecidableEq α] in
theorem states_append {moments : List (Cells Unit α)} {c : Cells Unit α} {l : List α}
    (hl : Linked c (head ()) l) : states (moments ++ [c]) = insert l (states moments) := by
  ext j
  constructor
  · rintro ⟨c', hc', hj⟩
    rcases List.mem_append.mp hc' with hc' | hc'
    · exact .inr ⟨c', hc', hj⟩
    · rw [List.mem_singleton.mp hc'] at hj
      exact .inl (hj.unique hl)
  · rintro (rfl | ⟨c', hc', hj⟩)
    · exact ⟨c, List.mem_append_right _ List.mem_cons_self, hl⟩
    · exact ⟨c', List.mem_append_left _ hc', hj⟩

omit [DecidableEq ρ] [DecidableEq α] in
theorem Unseen.write {m : Shared k ρ α} {list : k.Mem α} {l : List α} {x : α} (hx : Unseen m x)
    (hl : Linked (k.cells list) (head ()) l) (hxl : x ∉ l) : Unseen (m.write list) x := by
  intro r moments hm c hc j hj
  obtain ⟨old, hold, rfl⟩ := Option.map_eq_some_iff.mp hm
  rcases List.mem_append.mp hc with hc | hc
  · exact hx r old hold c hc j hj
  · rw [List.mem_singleton.mp hc] at hj
    exact hj.unique hl ▸ hxl

omit [DecidableEq α] in
theorem Unseen.enter {m : Shared k ρ α} {l : List α} {x : α} (hx : Unseen m x)
    (hl : Linked (k.cells m.list) (head ()) l) (hxl : x ∉ l) (r : ρ) : Unseen (m.enter r) x := by
  intro r' moments hm c hc j hj
  by_cases hne : r' = r
  · subst hne
    obtain rfl : [k.cells m.list] = moments := by simpa [Shared.enter] using hm
    rw [List.mem_singleton.mp hc] at hj
    exact hj.unique hl ▸ hxl
  · have hm' : m.moments r' = some moments := by simpa [Shared.enter, hne] using hm
    exact hx r' moments hm' c hc j hj

omit [DecidableEq α] in
theorem Unseen.leave {m : Shared k ρ α} {x : α} (hx : Unseen m x) (r : ρ) :
    Unseen (m.leave r) x := by
  intro r' moments hm
  by_cases hne : r' = r
  · subst hne
    simp [Shared.leave] at hm
  · exact hx r' moments (by simpa [Shared.leave, hne] using hm)

omit [DecidableEq ρ] in
/-- What the writer has to do is the same while the list is and what it inserts is still new. -/
theorem Writes.same {m m' : Shared k ρ α} {stores : Script (k.Mem α)} (hw : Writes m stores)
    (hlist : m'.list = m.list)
    (hunseen : ∀ x l, Linked (k.cells m.list) (head ()) l → x ∉ l → Unseen m x → Unseen m' x) :
    Writes m' stores := by
  obtain ⟨new, l, l', hl, hn, hfollows, hrun, hnew⟩ := hw
  refine ⟨new, l, l', hlist ▸ hl, hn, hlist ▸ hfollows, hlist ▸ hrun, fun x hx => ?_⟩
  exact ⟨(hnew x hx).1, hunseen x l hl (hnew x hx).1 (hnew x hx).2⟩

omit [DecidableEq ρ] in
/-- A store of the writer. -/
theorem Writes.store {m : Shared k ρ α} {f : k.Mem α → Option (k.Mem α)}
    {stores : Script (k.Mem α)} {list : k.Mem α} (hw : Writes m (f :: stores))
    (h : f m.list = some list) : Inv (m.write list) ∧ Writes (m.write list) stores := by
  obtain ⟨new, l, l', hl, hn, ⟨m₁, new₁, l₁, hf, hc, hfollows⟩, ⟨m', hrun, hr⟩, hnew⟩ := hw
  obtain rfl := Option.some.inj (hf.symm.trans h)
  obtain ⟨hl₁, hn₁, hnew₁⟩ := hc.linked hl hn fun x hx => (hnew x hx).1
  refine ⟨⟨l₁, hl₁, hn₁⟩, new₁, l₁, l', hl₁, hn₁, hfollows, ⟨m', ?_, hr⟩, fun x hx => ?_⟩
  · rw [Script.run, hf] at hrun
    exact hrun
  · obtain ⟨hold, hxl⟩ := hnew₁ x hx
    exact ⟨hxl, (hnew x hold).2.write hl₁ hxl⟩

omit [DecidableEq ρ] in
/-- A store of the writer, seen by a reader. -/
theorem Reads.store {m : Shared k ρ α} {f : k.Mem α → Option (k.Mem α)}
    {stores : Script (k.Mem α)} {list : k.Mem α} (hw : Writes m (f :: stores))
    (h : f m.list = some list) {r : ρ} {moments : List (Cells Unit α)} {d : Loc Unit α}
    {visited : List α} (hm : m.moments r = some moments) (hreads : Reads m moments d visited) :
    Reads (m.write list) (moments ++ [k.cells list]) d visited := by
  obtain ⟨new, l, l', hl, hn, ⟨m₁, new₁, l₁, hf, hc, -⟩, -, hnew⟩ := hw
  obtain rfl := Option.some.inj (hf.symm.trans h)
  obtain ⟨hl₁, -⟩ := hc.linked hl hn fun x hx => (hnew x hx).1
  refine ⟨List.mem_append_right moments List.mem_cons_self, fun c hc => ?_, ?_⟩
  · rcases List.mem_append.mp hc with hc | hc
    · exact hreads.linked c hc
    · exact ⟨l₁, List.mem_singleton.mp hc ▸ hl₁⟩
  · rw [states_append hl₁]
    refine hreads.tracks.change hc ⟨_, hreads.now, hl⟩ hl hn ?_
    rintro x hx j ⟨c, hc, hj⟩
    exact (hnew x hx).2 r moments hm c hc j hj

omit [DecidableEq ρ] in
/-- The last pointer that a reader follows. -/
theorem Reads.finish {m : Shared k ρ α} {moments : List (Cells Unit α)} {d : Loc Unit α}
    {visited : List α} (hreads : Reads m moments d visited) (h : k.cells m.list d = none) :
    Complete visited moments := by
  obtain ⟨hall, hnodup, horder⟩ := hreads.tracks.finished h
  refine ⟨fun x hx => ?_, hnodup, fun c hc => ?_⟩
  · obtain ⟨l, hl⟩ := hreads.linked _ hreads.now
    refine hall l ⟨_, hreads.now, hl⟩ x (hx _ hreads.now l hl) ?_
    rintro j ⟨c, hc, hj⟩
    exact hx c hc j hj
  · obtain ⟨l, hl⟩ := hreads.linked c hc
    exact ⟨l, hl, horder l ⟨c, hc, hl⟩⟩

omit [DecidableEq α] in
theorem Reads.start {m : Shared k ρ α} (hi : Inv m) (r : ρ) :
    Reads (m.enter r) [k.cells m.list] (head ()) [] := by
  obtain ⟨l, hl, hn⟩ := hi
  refine ⟨List.mem_cons_self, fun c hc => ⟨l, List.mem_singleton.mp hc ▸ hl⟩, ?_⟩
  rw [states_singleton hl]
  exact Tracks.start hl hn

omit [DecidableEq ρ] in
/-- A step of a reader leaves the writer as it is. -/
theorem At.writer {m m' : Shared k ρ α} {p : Pc k α} (hat : At none m p)
    (hlist : m'.list = m.list)
    (hunseen : ∀ x l, Linked (k.cells m.list) (head ()) l → x ∉ l → Unseen m x → Unseen m' x) :
    At none m' p := by
  cases p with
  | idle =>
    obtain ⟨l, hr⟩ := hat
    exact ⟨l, hlist ▸ hr⟩
  | writing stores => exact Writes.same hat hlist hunseen
  | reading => exact hat
  | done => exact hat

omit [DecidableEq ρ] in
/-- A step of a reader leaves the other readers as they are. -/
theorem At.reader {m m' : Shared k ρ α} {p : Pc k α} {r : ρ} (hat : At (some r) m p)
    (hlist : m'.list = m.list) (hmoments : m'.moments r = m.moments r) : At (some r) m' p := by
  cases p with
  | idle => trivial
  | writing stores => exact hat
  | reading d visited =>
    obtain ⟨moments, hm, hnow, hlinked, htracks⟩ := hat
    exact ⟨moments, hmoments.trans hm, hlist ▸ hnow, hlinked, hlist ▸ htracks⟩
  | done => exact hat

theorem invariant :
    Threads.Invariant (Step k (ρ := ρ) (α := α)) (fun _ _ _ => True) Inv At where
  own {i m p m' p'} hstep _ hinv hat := by
    cases hstep with
    | edit hedits hlinked hnext hunseen hscript =>
      obtain ⟨l₀, hr⟩ := hat
      obtain ⟨hl₀, hn₀⟩ := Kind.Represents.linked hr
      obtain rfl := hl₀.unique hlinked
      obtain ⟨l', hfollows, hnot, hrun⟩ := Kind.Represents.follows hr hedits hnext hscript
      exact ⟨hinv, _, _, l', hlinked, hn₀, hfollows, hrun, fun x hx => ⟨hnot x hx, hunseen x hx⟩⟩
    | store h => exact Writes.store hat h
    | edited m =>
      obtain ⟨_, _, l', _, _, _, ⟨m', hrun, hr⟩, _⟩ := hat
      obtain rfl := Option.some.inj hrun
      exact ⟨hinv, l', hr⟩
    | start r m => exact ⟨hinv, _, Function.update_self .., Reads.start hinv r⟩
    | visit r h =>
      obtain ⟨moments, hm, hreads⟩ := hat
      exact ⟨hinv, moments, hm, hreads.now, hreads.linked, hreads.tracks.visit h⟩
    | finish r h hm =>
      obtain ⟨_, hm', hreads⟩ := hat
      obtain rfl := Option.some.inj (hm'.symm.trans hm)
      exact ⟨hinv, hreads.finish h⟩
    | again => exact ⟨hinv, trivial⟩
  other {i m p m' p'} hstep _ hinv hat j q hj hatj := by
    cases hstep with
    | edit => exact hatj
    | store h =>
      cases j with
      | none => exact absurd rfl hj
      | some r =>
        cases q with
        | idle => trivial
        | writing => exact hatj
        | reading d visited =>
          obtain ⟨moments, hm, hreads⟩ := hatj
          exact ⟨_, by simp [Shared.write, hm], hreads.store hat h hm⟩
        | done => exact hatj
    | edited => exact hatj
    | start r m =>
      cases j with
      | none => exact hatj.writer rfl fun x l hl hxl hx => hx.enter hl hxl r
      | some r' =>
        exact hatj.reader rfl (Function.update_of_ne (fun heq => hj (congrArg some heq)) ..)
    | visit => exact hatj
    | finish r h hm =>
      cases j with
      | none => exact hatj.writer rfl fun x l _ _ hx => hx.leave r
      | some r' =>
        exact hatj.reader rfl (Function.update_of_ne (fun heq => hj (congrArg some heq)) ..)
    | again => exact hatj

/-- A traversal that has come to the end has been at every element that was in the list all the
time, at none twice, and at those that it shares with a list there has been in the order of that
list. -/
theorem traversal_complete (k : Kind) {list : k.Mem α} {l : List α}
    (hinit : k.Represents list (fun _ => some l))
    {s : Threads.System (Shared k ρ α) (Pc k α) (Option ρ)}
    (hr : Threads.System.Reachable (Step k) (fun _ _ _ => True)
      ⟨⟨fun _ => none, list⟩, fun _ => .idle⟩ s)
    {r : ρ} {visited : List α} {moments : List (Cells Unit α)}
    (hdone : s.pc (some r) = .done visited moments) :
    (∀ x, (∀ c ∈ moments, ∀ l, Linked c (head ()) l → x ∈ l) → x ∈ visited) ∧ visited.Nodup ∧
      ∀ c ∈ moments, ∃ l, Linked c (head ()) l ∧
        visited.filter (· ∈ l) = l.filter (· ∈ visited) := by
  have hat₀ : ∀ i, At (ρ := ρ) i ⟨fun _ => none, list⟩ (.idle : Pc k α) := by
    intro i
    cases i with
    | none => exact ⟨l, hinit⟩
    | some r => trivial
  have hat := ((invariant.reachable hr (fun _ => trivial) ⟨l, hinit.linked⟩ hat₀).2 (some r)).2
  rw [hdone] at hat
  exact ⟨Complete.all hat, Complete.nodup hat, Complete.order hat⟩

/-- Two elements, the first of which is removed after the reader has come to it. -/
theorem traversal_complete_removed :
    ∃ (list : Kind.slist.Mem (Fin 2))
      (s : Threads.System (Shared .slist Unit (Fin 2)) (Pc .slist (Fin 2)) (Option Unit))
      (moments : List (Cells Unit (Fin 2))),
      Threads.System.Reachable (Step .slist) (fun _ _ _ => True)
        ⟨⟨fun _ => none, list⟩, fun _ => .idle⟩ s ∧
      s.pc (some ()) = .done [0, 1] moments ∧ moments.length = 2 ∧
      ∀ c ∈ moments, ∃ l, Linked c (head ()) l ∧
        [0, 1].filter (· ∈ l) = l.filter (· ∈ ([0, 1] : List (Fin 2))) := by
  let list : Kind.slist.Mem (Fin 2) := fun d => match d with
    | .head _ => some 0
    | .next 0 => some 1
    | .next 1 => none
  have hlinked : Linked list (head ()) [0, 1] := ⟨rfl, rfl, rfl⟩
  have hinit : Kind.slist.Represents list (fun _ => some [0, 1]) := by
    refine ⟨⟨?_, fun _ _ _ _ _ _ _ _ _ => rfl⟩, ?_⟩
    · rintro _ _ ⟨⟩
      decide
    · rintro _ _ ⟨⟩
      exact hlinked
  have h₁ := (Relation.ReflTransGen.refl (r := Threads.System.Step (Step .slist)
    (fun _ _ _ => True)) (a := (⟨⟨fun _ => none, list⟩, fun _ => .idle⟩ :
      Threads.System (Shared .slist Unit (Fin 2)) (Pc .slist (Fin 2)) (Option Unit)))).tail
    (.run (some ()) (.start () _) fun _ => trivial)
  have h₂ := h₁.tail (.run (some ()) (.visit () (x := 0) rfl) fun _ => trivial)
  have hedits : Kind.slist.edits (.removeHead () : CkSlist.Op Unit (Fin 2)) := rfl
  have h₃ := h₂.tail (.run none (.edit (k := .slist) hedits hlinked (.removeHead rfl)
    (by rintro x ⟨⟩) ⟨0, fun _ _ => rfl⟩) fun _ => trivial)
  have h₄ := h₃.tail (.run none (.store rfl) fun _ => trivial)
  have h₅ := h₄.tail (.run (some ()) (.visit () (x := 1) rfl) fun _ => trivial)
  have h₆ := h₅.tail (.run (some ()) (.finish () rfl rfl) fun _ => trivial)
  have hdone : ∀ s moments, Threads.System.Reachable (Step .slist) (fun _ _ _ => True)
      ⟨⟨fun _ => none, list⟩, fun _ => .idle⟩ s → s.pc (some ()) = .done [0, 1] moments →
      ∀ c ∈ moments, ∃ l, Linked c (head ()) l ∧
        [0, 1].filter (· ∈ l) = l.filter (· ∈ ([0, 1] : List (Fin 2))) :=
    fun s moments hr hpc => (traversal_complete .slist hinit hr hpc).2.2
  exact ⟨list, _, _, h₆, rfl, rfl, hdone _ _ h₆ rfl⟩

end ConcurrencyKit.Foreach
