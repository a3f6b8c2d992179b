import ConcurrencyKit.Misc.Chain
import Mathlib.Data.Set.Insert

/-!
# Reading a chain of pointers while it changes

A reader follows the pointers from a head on, one at a time, while elements are linked in and out
(`Change`). It may stand on an element that has been removed, and follow pointers that have not been
in the list for long.

The lists that there have been since the reader has begun fit into one order (`Order`). An element
is `Gone` when it has been missing from one of them. Every pointer, also one in an element that is
no longer in the list, leads to an element that comes later in the order, and skips no others than
elements that are gone. So the reader (`Tracks`) moves along the order, and only leaves out elements
that are gone.
-/

namespace ConcurrencyKit.Chain

open Loc (head next)

variable {η α : Type}

/-- What a store does to a list. Before an element is linked in, it is `new`; it can be prepared as
long as it is. -/
inductive Change [DecidableEq η] [DecidableEq α] (h : η) :
    Option α → Cells η α → List α → Option α → Cells η α → List α → Prop
  | silent (new : Option α) (c : Cells η α) (l : List α) : Change h new c l new c l
  | fill (x : α) (c : Cells η α) (l : List α) (v : Option α) :
      Change h (some x) c l (some x) (Function.update c (next x) v) l
  | link {x : α} {c : Cells η α} {l₁ l₂ : List α}
      (hnext : c (next x) = c (endFrom (head h) l₁)) :
      Change h (some x) c (l₁ ++ l₂) none
        (Function.update c (endFrom (head h) l₁) (some x)) (l₁ ++ x :: l₂)
  | unlink {new : Option α} {c : Cells η α} {l₁ l₂ : List α} {x : α} :
      Change h new c (l₁ ++ x :: l₂) new
        (Function.update c (endFrom (head h) l₁) (c (next x))) (l₁ ++ l₂)

/-- A store to something that is not in a cell. -/
theorem Change.same [DecidableEq η] [DecidableEq α] {h : η} {new : Option α} {c c' : Cells η α}
    {l : List α} (heq : c' = c) : Change h new c l new c' l := by
  rw [heq]
  exact .silent new c l

/-- An element is linked in at a cell `d`. -/
theorem Change.link_at [DecidableEq η] [DecidableEq α] {h : η} {c : Cells η α} {d : Loc η α}
    {l₁ l₂ : List α} {x : α} (hd : d = endFrom (head h) l₁) (hnext : c (next x) = c d) :
    Change h (some x) c (l₁ ++ l₂) none (Function.update c d (some x)) (l₁ ++ x :: l₂) := by
  subst hd
  exact .link hnext

/-- The element has been missing from one of the lists. -/
def Gone (lists : Set (List α)) (z : α) : Prop := ∃ l ∈ lists, z ∉ l

/-- A pointer leads into `post`, or behind its end, and skips only elements that are gone. -/
def Skips (gone : α → Prop) : Option α → List α → Prop
  | none, post => ∀ z ∈ post, gone z
  | some y, post => ∃ q q', post = q ++ y :: q' ∧ ∀ z ∈ q, gone z

/-- The lists fit into the order, and no pointer from an element of it, or from the head, skips
more than it may. -/
structure Order (h : η) (c : Cells η α) (lists : Set (List α)) (order : List α) : Prop where
  nodup : order.Nodup
  sublist : ∀ l ∈ lists, l.Sublist order
  seen : ∀ x ∈ order, ∃ l ∈ lists, x ∈ l
  skips : ∀ pre post, order = pre ++ post →
    Skips (Gone lists) (c (endFrom (head h) pre)) post

/-- A reader that is about to follow the pointer at `d` and has visited some elements. -/
def Tracks (h : η) (c : Cells η α) (lists : Set (List α)) (d : Loc η α) (visited : List α) : Prop :=
  ∃ pre post, Order h c lists (pre ++ post) ∧ d = endFrom (head h) pre ∧ visited.Sublist pre ∧
    ∀ x ∈ pre, Gone lists x ∨ x ∈ visited

variable {h : η} {c : Cells η α} {lists : Set (List α)} {order pre post l l₁ l₂ : List α}
  {x y z : α} {o : Option α} {gone gone' : α → Prop}

theorem Gone.insert (hz : Gone lists z) (l : List α) : Gone (insert l lists) z := by
  obtain ⟨k, hk, hz⟩ := hz
  exact ⟨k, Set.mem_insert_of_mem l hk, hz⟩

/-! ## Pointers that skip elements -/

theorem Skips.mono (hs : Skips gone o post) (hsub : ∀ z, gone z → gone' z) :
    Skips gone' o post := by
  cases o with
  | none => exact fun z hz => hsub z (hs z hz)
  | some y =>
    obtain ⟨q, q', heq, hq⟩ := hs
    exact ⟨q, q', heq, fun z hz => hsub z (hq z hz)⟩

/-- A pointer may skip more elements that are gone. -/
theorem Skips.before (hs : Skips gone o post) (hpre : ∀ z ∈ pre, gone z) :
    Skips gone o (pre ++ post) := by
  cases o with
  | none =>
    intro z hz
    rcases List.mem_append.mp hz with hz | hz
    · exact hpre z hz
    · exact hs z hz
  | some y =>
    obtain ⟨q, q', rfl, hq⟩ := hs
    refine ⟨pre ++ q, q', (List.append_assoc ..).symm, fun z hz => ?_⟩
    rcases List.mem_append.mp hz with hz | hz
    · exact hpre z hz
    · exact hq z hz

/-- An element that counts as gone gets a place in the order. -/
theorem Skips.insert (hs : Skips gone o (l₁ ++ l₂)) (hx : gone x) :
    Skips gone o (l₁ ++ x :: l₂) := by
  cases o with
  | none =>
    intro z hz
    rcases List.mem_append.mp hz with hz | hz
    · exact hs z (List.mem_append_left l₂ hz)
    · rcases List.mem_cons.mp hz with rfl | hz
      · exact hx
      · exact hs z (List.mem_append_right l₁ hz)
  | some y =>
    obtain ⟨q, q', heq, hq⟩ := hs
    rcases List.append_eq_append_iff.mp heq with ⟨r, rfl, hr⟩ | ⟨r, rfl, hr⟩
    · -- the pointer leads behind the new place
      refine ⟨l₁ ++ x :: r, q', by simp [hr], fun z hz => ?_⟩
      rcases List.mem_append.mp hz with hz | hz
      · exact hq z (List.mem_append_left r hz)
      · rcases List.mem_cons.mp hz with rfl | hz
        · exact hx
        · exact hq z (List.mem_append_right l₁ hz)
    · cases r with
      | nil =>
        -- or to the element that comes next after it
        rw [List.append_nil]
        refine ⟨q ++ [x], q', by simp [hr], fun z hz => ?_⟩
        rcases List.mem_append.mp hz with hz | hz
        · exact hq z hz
        · exact List.mem_singleton.mp hz ▸ hx
      | cons b r =>
        obtain ⟨rfl, rfl⟩ := List.cons.inj hr
        exact ⟨q, r ++ x :: l₂, by simp, hq⟩

/-! ## Places in the order -/

/-- Behind more elements there is another cell. -/
theorem endFrom_append_ne (hn : (l₁ ++ l₂).Nodup) (hne : l₂ ≠ []) :
    endFrom (head h) (l₁ ++ l₂) ≠ endFrom (head h) l₁ := by
  rcases l₂.eq_nil_or_concat with rfl | ⟨l, a, rfl⟩
  · exact absurd rfl hne
  rw [List.concat_eq_append] at hn ⊢
  rw [← List.append_assoc, endFrom_concat]
  rcases endFrom_eq (head h : Loc η α) l₁ with heq | ⟨x, hx, heq⟩
  · rw [heq]
    simp
  · rw [heq]
    rintro ⟨⟩
    exact List.disjoint_of_nodup_append hn hx (List.mem_append_right l List.mem_cons_self)

/-- A place in a list is one in the order. -/
theorem exists_place (h : η) (hs : (l₁ ++ l₂).Sublist order) :
    ∃ a b, order = a ++ b ∧ l₁.Sublist a ∧ l₂.Sublist b ∧
      endFrom (head h) a = endFrom (head h) l₁ := by
  rcases l₁.eq_nil_or_concat with rfl | ⟨l, x, rfl⟩
  case inl => exact ⟨[], order, rfl, List.Sublist.refl _, hs, rfl⟩
  case inr =>
    rw [List.concat_eq_append] at hs ⊢
    obtain ⟨r₁, r₂, rfl, h₁, h₂⟩ := List.append_sublist_iff.mp hs
    obtain ⟨r₃, r₄, rfl, h₃, h₄⟩ := List.append_sublist_iff.mp h₁
    obtain ⟨s, t, rfl⟩ := List.append_of_mem (List.singleton_sublist.mp h₄)
    refine ⟨r₃ ++ s ++ [x], t ++ r₂, by simp, ?_, ?_, ?_⟩
    · exact (h₃.trans (List.sublist_append_left r₃ s)).append (List.Sublist.refl [x])
    · exact h₂.trans (List.sublist_append_right t r₂)
    · rw [endFrom_concat, endFrom_concat]

/-! ## What a store does to the order -/

section Stores

variable [DecidableEq η] [DecidableEq α]

/-- A store to an element that is not in the order. -/
theorem Order.fill (ho : Order h c lists order) (hx : x ∉ order) (v : Option α) :
    Order h (Function.update c (next x) v) lists order where
  nodup := ho.nodup
  sublist := ho.sublist
  seen := ho.seen
  skips pre post heq := by
    have hpre : x ∉ pre := fun hmem => hx (heq ▸ List.mem_append_left post hmem)
    have hne : endFrom (head h) pre ≠ next x := Ne.symm (ne_endFrom (by simp) (outside_next hpre))
    rw [Function.update_of_ne hne]
    exact ho.skips pre post heq

/-- The new element gets its place behind the cell that it is stored to. -/
theorem Order.link (ho : Order h c lists (l₁ ++ l₂)) (hx : x ∉ l₁ ++ l₂) (hl : l ∈ lists)
    (hxl : x ∉ l) {k : List α} (hk : k.Sublist (l₁ ++ x :: l₂)) (hxk : x ∈ k)
    (hnext : c (next x) = c (endFrom (head h) l₁)) :
    Order h (Function.update c (endFrom (head h) l₁) (some x)) (insert k lists)
      (l₁ ++ x :: l₂) where
  nodup := List.nodup_middle.mpr (List.nodup_cons.mpr ⟨hx, ho.nodup⟩)
  sublist := by
    rintro j (rfl | hj)
    · exact hk
    · exact (ho.sublist j hj).trans ((List.Sublist.refl l₁).append (List.sublist_cons_self x l₂))
  seen := by
    intro y hy
    by_cases hyx : y = x
    · exact ⟨k, Set.mem_insert k lists, hyx ▸ hxk⟩
    · obtain ⟨j, hj, hyj⟩ := ho.seen y (by simp at hy ⊢; tauto)
      exact ⟨j, Set.mem_insert_of_mem k hj, hyj⟩
  skips := by
    have hgone : Gone (insert k lists) x := ⟨l, Set.mem_insert_of_mem k hl, hxl⟩
    have hx₁ : x ∉ l₁ := fun hmem => hx (List.mem_append_left l₂ hmem)
    have hold : ∀ pre post, l₁ ++ l₂ = pre ++ post →
        Skips (Gone (insert k lists)) (c (endFrom (head h) pre)) post :=
      fun pre post heq => (ho.skips pre post heq).mono fun z hz => hz.insert k
    have hnew : Skips (Gone (Insert.insert k lists))
        (Function.update c (endFrom (head h) l₁) (some x) (endFrom (head h) l₁)) (x :: l₂) := by
      rw [Function.update_self]
      exact ⟨[], l₂, rfl, by simp⟩
    have hnodup : (l₁ ++ x :: l₂).Nodup :=
      List.nodup_middle.mpr (List.nodup_cons.mpr ⟨hx, ho.nodup⟩)
    intro pre post heq
    rcases List.append_eq_append_iff.mp heq with ⟨r, rfl, hr⟩ | ⟨r, rfl, rfl⟩
    · cases r with
      | nil =>
        rw [List.append_nil, List.nil_append] at *
        exact hr ▸ hnew
      | cons b r =>
        -- behind the new element everything is as it was behind the cell before it
        obtain ⟨rfl, rfl⟩ := List.cons.inj hr
        have hne : endFrom (head h) (l₁ ++ x :: r) ≠ endFrom (head h) l₁ := by
          rw [heq] at hnodup
          exact endFrom_append_ne hnodup.of_append_left (by simp)
        have hsame : c (endFrom (head h) (l₁ ++ x :: r)) = c (endFrom (head h) (l₁ ++ r)) := by
          rw [endFrom_append, endFrom_append, endFrom_cons]
          cases r with
          | nil => exact hnext
          | cons b r => rfl
        rw [Function.update_of_ne hne, hsame]
        exact hold (l₁ ++ r) post (by simp)
    · cases r with
      | nil =>
        rw [List.append_nil, List.nil_append] at *
        exact hnew
      | cons b r =>
        have hne : endFrom (head h) pre ≠ endFrom (head h) (pre ++ b :: r) :=
          (endFrom_append_ne hnodup.of_append_left (by simp)).symm
        rw [Function.update_of_ne hne]
        exact (hold pre (b :: r ++ l₂) (by simp)).insert hgone

/-- The cell before an element that is linked out skips it from now on. -/
theorem Order.unlink (ho : Order h c lists order) (hl : l₁ ++ x :: l₂ ∈ lists)
    (hcell : c (endFrom (head h) l₁) = some x) (hn : (l₁ ++ x :: l₂).Nodup) :
    Order h (Function.update c (endFrom (head h) l₁) (c (next x))) (insert (l₁ ++ l₂) lists)
      order where
  nodup := ho.nodup
  sublist := by
    have hsub : (l₁ ++ l₂).Sublist (l₁ ++ x :: l₂) :=
      (List.Sublist.refl l₁).append (List.sublist_cons_self x l₂)
    rintro j (rfl | hj)
    · exact hsub.trans (ho.sublist _ hl)
    · exact ho.sublist j hj
  seen y hy := by
    obtain ⟨j, hj, hyj⟩ := ho.seen y hy
    exact ⟨j, Set.mem_insert_of_mem _ hj, hyj⟩
  skips := by
    have hgone : Gone (insert (l₁ ++ l₂) lists) x :=
      ⟨l₁ ++ l₂, Set.mem_insert .., (List.nodup_cons.mp (List.nodup_middle.mp hn)).1⟩
    have hold : ∀ pre post, order = pre ++ post →
        Skips (Gone (insert (l₁ ++ l₂) lists)) (c (endFrom (head h) pre)) post :=
      fun pre post heq => (ho.skips pre post heq).mono fun z hz => hz.insert _
    intro pre post heq
    by_cases hpre : endFrom (head h) pre = endFrom (head h) l₁
    case neg =>
      rw [Function.update_of_ne hpre]
      exact hold pre post heq
    case pos =>
      have hat := hold pre post heq
      rw [hpre, hcell] at hat
      obtain ⟨q, q', rfl, hq⟩ := hat
      have hrest := hold (pre ++ q ++ [x]) q' (by simp [heq])
      rw [endFrom_concat] at hrest
      have hbetween : ∀ z ∈ q ++ [x], Gone (insert (l₁ ++ l₂) lists) z := by
        intro z hz
        rcases List.mem_append.mp hz with hz | hz
        · exact hq z hz
        · exact List.mem_singleton.mp hz ▸ hgone
      have hskip := hrest.before hbetween
      rw [hpre, Function.update_self]
      simpa using hskip

end Stores

/-- A store leaves a list behind, and an element that is still new is not in it. -/
theorem Change.linked [DecidableEq η] [DecidableEq α] {new new' : Option α} {c' : Cells η α}
    {k : List α} (hc : Change h new c l new' c' k) (hl : Linked c (head h) l) (hn : l.Nodup)
    (hnew : ∀ x, new = some x → x ∉ l) :
    Linked c' (head h) k ∧ k.Nodup ∧ ∀ x, new' = some x → new = some x ∧ x ∉ k := by
  cases hc with
  | silent => exact ⟨hl, hn, fun x hx => ⟨hx, hnew x hx⟩⟩
  | fill x v =>
    exact ⟨hl.update (by simp) (outside_next (hnew x rfl)), hn, fun y hy => ⟨hy, hnew y hy⟩⟩
  | @link x _ l₁ l₂ hnext =>
    have hx := hnew x rfl
    exact ⟨hl.link (outside_head h _) hn hx (by simp) hnext,
      List.nodup_middle.mpr (List.nodup_cons.mpr ⟨hx, hn⟩), by simp⟩
  | @unlink _ _ l₁ l₂ x =>
    refine ⟨hl.unlink (outside_head h _) hn, (List.nodup_cons.mp (List.nodup_middle.mp hn)).2,
      fun y hy => ⟨hy, fun hmem => hnew y hy ?_⟩⟩
    simp only [List.mem_append, List.mem_cons] at hmem ⊢
    tauto

/-! ## The reader -/

/-- A reader begins at the head. -/
theorem Tracks.start (hl : Linked c (head h) l) (hn : l.Nodup) :
    Tracks h c {l} (head h) [] := by
  refine ⟨[], l, ⟨hn, ?_, fun x hx => ⟨l, rfl, hx⟩, ?_⟩, rfl, List.Sublist.refl [], by simp⟩
  · rintro j rfl
    exact List.Sublist.refl _
  · rintro pre post heq
    rw [List.nil_append] at heq
    have hrest := (linked_append.mp (heq ▸ hl)).2
    cases post with
    | nil =>
      rw [show c (endFrom (head h) pre) = none from hrest]
      simp [Skips]
    | cons a post =>
      rw [hrest.1]
      exact ⟨[], post, rfl, by simp⟩

/-- A store to the list, seen by a reader. -/
theorem Tracks.change [DecidableEq η] [DecidableEq α] {new new' : Option α} {c' : Cells η α}
    {k visited : List α} {d : Loc η α} (ht : Tracks h c lists d visited)
    (hc : Change h new c l new' c' k) (hl : l ∈ lists) (hlinked : Linked c (head h) l)
    (hn : l.Nodup) (hnew : ∀ x, new = some x → ∀ j ∈ lists, x ∉ j) :
    Tracks h c' (insert k lists) d visited := by
  obtain ⟨pre, post, ho, hd, hsub, hvisited⟩ := ht
  -- what is new is not in the order
  have hnot : ∀ x, new = some x → x ∉ pre ++ post := by
    intro x hx hmem
    obtain ⟨j, hj, hxj⟩ := ho.seen x hmem
    exact hnew x hx j hj hxj
  cases hc with
  | silent =>
    rw [Set.insert_eq_of_mem hl]
    exact ⟨pre, post, ho, hd, hsub, hvisited⟩
  | fill x v =>
    rw [Set.insert_eq_of_mem hl]
    exact ⟨pre, post, ho.fill (hnot x rfl) _, hd, hsub, hvisited⟩
  | @link x _ l₁ l₂ hnext =>
    obtain ⟨a, b, hab, ha, hb, hend⟩ := exists_place h (ho.sublist _ hl)
    have hx : x ∉ a ++ b := hab ▸ hnot x rfl
    have hxl : x ∉ l₁ ++ l₂ := hnew x rfl _ hl
    have hgone : Gone (insert (l₁ ++ x :: l₂) lists) x := ⟨_, Set.mem_insert_of_mem _ hl, hxl⟩
    have ho' := (hab ▸ ho).link hx hl hxl (ha.append (hb.cons_cons x))
      (List.mem_append_right l₁ List.mem_cons_self) (hend ▸ hnext)
    rw [hend] at ho'
    rcases List.append_eq_append_iff.mp hab with ⟨r, rfl, rfl⟩ | ⟨r, rfl, rfl⟩
    · -- the reader has not come to the new place yet
      refine ⟨pre, r ++ x :: b, by rwa [← List.append_assoc], hd, hsub, fun y hy => ?_⟩
      exact (hvisited y hy).imp (fun hy => hy.insert _) id
    · cases r with
      | nil =>
        rw [List.append_nil] at *
        refine ⟨a, x :: post, ho', hd, hsub, fun y hy => ?_⟩
        exact (hvisited y hy).imp (fun hy => hy.insert _) id
      | cons e r =>
        -- the reader is behind it
        refine ⟨a ++ x :: e :: r, post, by simpa using ho', ?_, ?_, fun y hy => ?_⟩
        · rw [hd, endFrom_append, endFrom_append]
          rfl
        · exact hsub.trans ((List.Sublist.refl a).append (List.sublist_cons_self x _))
        · rcases List.mem_append.mp hy with hy | hy
          · exact (hvisited y (List.mem_append_left _ hy)).imp (fun hy => hy.insert _) id
          · rcases List.mem_cons.mp hy with rfl | hy
            · exact .inl hgone
            · exact (hvisited y (List.mem_append_right a hy)).imp (fun hy => hy.insert _) id
  | @unlink _ _ l₁ l₂ x =>
    refine ⟨pre, post, ho.unlink hl (linked_append.mp hlinked).2.1 hn, hd, hsub, fun y hy => ?_⟩
    exact (hvisited y hy).imp (fun hy => hy.insert _) id

/-- The reader follows a pointer to an element. -/
theorem Tracks.visit {visited : List α} {d : Loc η α} (ht : Tracks h c lists d visited)
    (hy : c d = some y) : Tracks h c lists (next y) (visited ++ [y]) := by
  obtain ⟨pre, post, ho, rfl, hsub, hvisited⟩ := ht
  have hskips := ho.skips pre post rfl
  rw [hy] at hskips
  obtain ⟨q, q', rfl, hq⟩ := hskips
  refine ⟨pre ++ q ++ [y], q', by simpa using ho, (endFrom_concat ..).symm, ?_, fun x hx => ?_⟩
  · exact (hsub.trans (List.sublist_append_left pre q)).append (List.Sublist.refl [y])
  · simp only [List.mem_append, List.mem_singleton] at hx ⊢
    rcases hx with (hx | hx) | hx
    · exact (hvisited x hx).imp id .inl
    · exact .inl (hq x hx)
    · exact .inr (.inr hx)

/-- Sublists of a list without duplicates are told apart by their elements. -/
theorem sublist_eq_filter [DecidableEq α] (hn : order.Nodup) (hs : l.Sublist order) :
    l = order.filter (· ∈ l) := by
  induction hs with
  | slnil => rfl
  | @cons l r a hs ih =>
    obtain ⟨ha, hn⟩ := List.nodup_cons.mp hn
    rw [List.filter_cons_of_neg (by simpa using fun hmem => ha (hs.subset hmem))]
    exact ih hn
  | @cons_cons l r a hs ih =>
    obtain ⟨ha, hn⟩ := List.nodup_cons.mp hn
    rw [List.filter_cons_of_pos (by simp)]
    refine congrArg (a :: ·) ((ih hn).trans (List.filter_congr fun x hx => ?_))
    have hne : x ≠ a := ne_of_mem_of_not_mem hx ha
    simp [hne]

/-- What a reader has done when it comes to the end. -/
theorem Tracks.finished [DecidableEq α] {visited : List α} {d : Loc η α}
    (ht : Tracks h c lists d visited) (hend : c d = none) :
    (∀ l ∈ lists, ∀ x ∈ l, (∀ j ∈ lists, x ∈ j) → x ∈ visited) ∧ visited.Nodup ∧
      ∀ l ∈ lists, visited.filter (· ∈ l) = l.filter (· ∈ visited) := by
  obtain ⟨pre, post, ho, rfl, hsub, hvisited⟩ := ht
  have hsub' := hsub.trans (List.sublist_append_left pre post)
  refine ⟨fun l hl x hx hall => ?_, ho.nodup.sublist hsub', fun l hl => ?_⟩
  · have hnot : ¬ Gone lists x := fun ⟨j, hj, hxj⟩ => hxj (hall j hj)
    have hskips := ho.skips pre post rfl
    rw [hend] at hskips
    rcases List.mem_append.mp ((ho.sublist l hl).subset hx) with hx | hx
    · exact (hvisited x hx).resolve_left hnot
    · exact absurd (hskips x hx) hnot
  · calc visited.filter (· ∈ l)
        = ((pre ++ post).filter (· ∈ visited)).filter (· ∈ l) := by
          rw [← sublist_eq_filter ho.nodup hsub']
      _ = ((pre ++ post).filter (· ∈ l)).filter (· ∈ visited) := List.filter_comm ..
      _ = l.filter (· ∈ visited) := by
          rw [← sublist_eq_filter ho.nodup (ho.sublist l hl)]

end ConcurrencyKit.Chain
