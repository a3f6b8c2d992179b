import ConcurrencyKit.Brlock.Model
import ConcurrencyKit.Lists.List

/-!
# What holds of a big-reader lock

The list of the readers belongs to the thread that has stored to `writer`, and is in order while
nobody has (`Listed`). A writer has seen of all readers before the cursor that they are not counted;
none of them is let in as long as `writer` is set.
-/

namespace ConcurrencyKit.Brlock

open Chain (Loc Cells Linked endFrom)
open Chain.Loc (head next)
open CkList (Back)

variable {ι : Type}

/-! ## The list -/

/-- The pointers that lead through the list. -/
def cells (m : Mem ι) : Cells Unit ι
  | .head _ => m.readers
  | .next a => m.next a

/-- The pointer to a reader, from what the reader says about the one before it. -/
def before : Option ι → Loc Unit ι
  | none => head ()
  | some a => next a

/-- Each reader knows the one before it and the one after it. -/
structure Listed (m : Mem ι) : Prop where
  nodup : m.list.Nodup
  linked : Linked (cells m) (head ()) m.list
  back : Back (fun a => before (m.previous a)) (head ()) m.list

/-- A new reader has been put before the list, which does not know it yet. -/
structure Joining (i : ι) (m : Mem ι) : Prop where
  nodup : m.list.Nodup
  linked : Linked (cells m) (head ()) m.list
  back : Back (fun a => before (m.previous a)) (next i) m.list
  next : m.next i = m.readers

/-- The reader after this one already knows the one before it. -/
structure Leaving (i : ι) (m : Mem ι) : Prop where
  nodup : m.list.Nodup
  linked : Linked (cells m) (head ()) m.list
  split : ∃ l₁ l₂, m.list = l₁ ++ i :: l₂ ∧ before (m.previous i) = endFrom (head ()) l₁ ∧
    Back (fun a => before (m.previous a)) (head ()) (l₁ ++ l₂)

/-! ## The invariant -/

variable {few : Bool} {i j : ι} {m m' : Mem ι} {pc : Pc ι}

/-- What holds of the words. -/
structure Inv (m : Mem ι) : Prop where
  writer : m.writer = true ↔ m.owner ≠ none
  free : m.owner = none → Listed m
  depth : ∀ r, r ∉ m.list → m.depth r = 0
  count : ∀ r, m.nReaders r = 0 → m.depth r % 2 ^ 32 = 0

/-- The thread has stored to `writer` in the call that it is in. -/
def Pc.busy : Pc ι → Bool
  | loadReaders _ _ | loadCount _ _ _ | loadNext _ _ _ | giveUp _ | regNext _ | regLink _
  | regHead _ | regUnlock _ | unregPrevious _ | unregNext _ | unregUnlock _ => true
  | _ => false

/-- The thread has stored to `writer`. -/
def Pc.owns (pc : Pc ι) : Bool := pc.busy || pc.held.writing

/-- The reader is in the list. -/
def Pc.listed : Pc ι → Bool
  | regUnlock _ => true
  | unregUnlock _ => false
  | pc => pc.held.registered

/-- The count of the reader says how often it has been let in. -/
def Pc.Counted : Pc ι → Prop
  | readCheck _ _ | readBack _ _ => False
  | pc => pc.held.registered = true

/-- Nobody has been let in of these. While no reader is let in as often as a word has values, this
is what the writer has seen. -/
def Quiet (few : Bool) (m : Mem ι) (l : List ι) : Prop := few = true → ∀ r ∈ l, m.depth r = 0

/-- What is known of the reader of a thread that locks the lock for a use. -/
def Use.Ready (i : ι) (m : Mem ι) (h : Held) : Use → Prop
  | .write _ => True
  | .register => h.registered = false ∧ m.nReaders i = 0 ∧ m.previous i = none
  | .unregister => h.registered = true ∧ h.depth = 0

/-- What is known from where a thread stands. -/
def Body (few : Bool) (i : ι) (m : Mem ι) : Pc ι → Prop
  | .outside _ => True
  | .unlock h => h.writing = true
  | .fas u h => u.Ready i m h
  | .loadReaders u h => u.Ready i m h ∧ Listed m
  | .loadCount u c h => u.Ready i m h ∧ Listed m ∧ ∃ l₁ l₂, m.list = l₁ ++ c :: l₂ ∧ Quiet few m l₁
  | .loadNext u c h => u.Ready i m h ∧ Listed m ∧ ∃ l₁ l₂, m.list = l₁ ++ c :: l₂ ∧
      Quiet few m (l₁ ++ [c])
  | .giveUp _ => Listed m
  | .regCount h => h.registered = false
  | .regPrevious h => h.registered = false ∧ m.nReaders i = 0
  | .regNext h => Use.register.Ready i m h ∧ Listed m
  | .regLink h => Use.register.Ready i m h ∧ Listed m ∧ m.next i = m.readers
  | .regHead h => Use.register.Ready i m h ∧ Joining i m
  | .regUnlock h => (h.depth = 0 ∧ m.nReaders i = 0) ∧ Listed m
  | .unregPrevious h => Use.unregister.Ready i m h ∧ Listed m
  | .unregNext h => Use.unregister.Ready i m h ∧ Leaving i m
  | .unregUnlock _ => Listed m
  | .readTest _ h => h.registered = true
  | .readNest h => h.registered = true ∧ m.nReaders i ≠ 0
  | .readWriter _ h | .readStore _ h => h.registered = true ∧ h.depth % 2 ^ 32 = 0
  | .readCheck _ h | .readBack _ h =>
    (h.registered = true ∧ h.depth % 2 ^ 32 = 0) ∧ m.nReaders i = 1
  | .readUnlock h => h.registered = true ∧ 0 < h.depth

/-- What is known about a thread. -/
structure At (few : Bool) (i : ι) (m : Mem ι) (pc : Pc ι) : Prop where
  owner : m.owner = some i ↔ pc.owns = true
  depth : m.depth i = pc.held.depth
  listed : i ∈ m.list ↔ pc.listed = true
  count : pc.Counted → m.nReaders i = m.depth i % 2 ^ 32
  idle : pc.busy = true → pc.held.writing = false
  writes : pc.held.writing = true → Listed m ∧ Quiet few m m.list
  body : Body few i m pc

/-- No reader is let in as often as `n_readers` has values. -/
def Few {P : Type} (few : Bool) (_ : ι) (m : Mem ι) (_ : P) : Prop :=
  few = true → ∀ r, m.depth r < 2 ^ 32

theorem inv_start (nReaders : ι → Nat) (previous next : ι → Option ι) :
    Inv (start nReaders previous next).mem where
  writer := by simp [start]
  free _ := ⟨List.nodup_nil, rfl, trivial⟩
  depth _ _ := rfl
  count _ _ := rfl

theorem at_start (few : Bool) (nReaders : ι → Nat) (previous next : ι → Option ι) (i : ι) :
    At few i (start nReaders previous next).mem (.outside ⟨false, 0, false⟩) where
  owner := by simp [start, Pc.owns, Pc.busy, Pc.held]
  depth := rfl
  listed := by simp [start, Pc.listed, Pc.held]
  count := nofun
  idle := nofun
  writes := nofun
  body := trivial

theorem Pc.owns_of_writing (h : pc.held.writing = true) : pc.owns = true := by
  rw [Pc.owns, h, Bool.or_true]

theorem At.out (h : At few i m pc) (hlisted : pc.listed = false) : i ∉ m.list := by
  intro hi
  rw [h.listed.mp hi] at hlisted
  cases hlisted

/-! ## Steps of other threads -/

/-- A step that does nothing to the list, and lets in nobody that has not been let in already. -/
structure Keeps (m m' : Mem ι) : Prop where
  readers : m'.readers = m.readers
  next : m'.next = m.next
  list : m'.list = m.list
  previous : ∀ r ∈ m.list, m'.previous r = m.previous r
  quiet : ∀ r, m.depth r = 0 → m'.depth r = 0

namespace Keeps

variable {l : List ι}

theorem cells_eq (hk : Keeps m m') : cells m' = cells m := by
  funext d
  cases d with
  | head h => exact hk.readers
  | next a => exact congrFun hk.next a

theorem back (hk : Keeps m m') {d : Loc Unit ι} (hl : ∀ r ∈ l, r ∈ m.list)
    (h : Back (fun a => before (m.previous a)) d l) :
    Back (fun a => before (m'.previous a)) d l :=
  h.congr fun r hr => congrArg _ (hk.previous r (hl r hr))

theorem linked (hk : Keeps m m') (h : Linked (cells m) (head ()) m.list) :
    Linked (cells m') (head ()) m'.list := by
  rw [hk.cells_eq, hk.list]
  exact h

theorem listed (hk : Keeps m m') (h : Listed m) : Listed m' := by
  refine ⟨hk.list ▸ h.nodup, hk.linked h.linked, ?_⟩
  rw [hk.list]
  exact hk.back (fun _ => id) h.back

theorem quiet' (hk : Keeps m m') (h : Quiet few m l) : Quiet few m' l :=
  fun hfew r hr => hk.quiet r (h hfew r hr)

theorem writes (hk : Keeps m m') (h : Listed m ∧ Quiet few m m.list) :
    Listed m' ∧ Quiet few m' m'.list := by
  refine ⟨hk.listed h.1, ?_⟩
  rw [hk.list]
  exact hk.quiet' h.2

theorem joining (hk : Keeps m m') (h : Joining i m) : Joining i m' := by
  refine ⟨hk.list ▸ h.nodup, hk.linked h.linked, ?_, ?_⟩
  · rw [hk.list]
    exact hk.back (fun _ => id) h.back
  · rw [hk.next, hk.readers]
    exact h.next

theorem leaving (hk : Keeps m m') (h : Leaving i m) : Leaving i m' := by
  obtain ⟨l₁, l₂, hl, hbefore, hback⟩ := h.split
  have hi : i ∈ m.list := hl ▸ List.mem_append_right l₁ List.mem_cons_self
  refine ⟨hk.list ▸ h.nodup, hk.linked h.linked, l₁, l₂, hk.list.trans hl, ?_, ?_⟩
  · rw [hk.previous i hi]
    exact hbefore
  · refine hk.back (fun r hr => ?_) hback
    rw [hl]
    rcases List.mem_append.mp hr with hr | hr
    · exact List.mem_append_left _ hr
    · exact List.mem_append_right l₁ (List.mem_cons_of_mem i hr)

end Keeps

/-- What a step of another thread leaves to thread `i`. -/
structure Frame (i : ι) (m m' : Mem ι) : Prop where
  owner : m'.owner = some i ↔ m.owner = some i
  depth : m'.depth i = m.depth i
  listed : i ∈ m'.list ↔ i ∈ m.list
  nReaders : m'.nReaders i = m.nReaders i
  previous : i ∉ m.list → m'.previous i = m.previous i
  keeps : m.owner = some i → Keeps m m'

namespace Frame

variable {h : Held} {u : Use}

theorem ready (hf : Frame i m m') (hout : h.registered = false → i ∉ m.list)
    (hready : u.Ready i m h) : u.Ready i m' h := by
  cases u with
  | write b => trivial
  | register =>
    obtain ⟨hnew, hcount, hprevious⟩ := hready
    exact ⟨hnew, hf.nReaders.trans hcount, (hf.previous (hout hnew)).trans hprevious⟩
  | unregister => exact hready

/-- What is known from where a thread stands stays true. -/
theorem body (hf : Frame i m m') (h : At few i m pc) : Body few i m' pc := by
  have hbody := h.body
  have howner := h.owner.mpr
  have hout := h.out
  cases pc with
  | outside h => trivial
  | unlock h | regCount h | readTest b h | readWriter b h | readStore b h | readUnlock h =>
    exact hbody
  | fas u h => exact hf.ready hout hbody
  | loadReaders u h => exact ⟨hf.ready hout hbody.1, (hf.keeps (howner rfl)).listed hbody.2⟩
  | loadCount u c h | loadNext u c h =>
    have hkeeps := hf.keeps (howner rfl)
    obtain ⟨hready, hlisted, l₁, l₂, hl, hquiet⟩ := hbody
    exact ⟨hf.ready hout hready, hkeeps.listed hlisted, l₁, l₂, hkeeps.list.trans hl,
      hkeeps.quiet' hquiet⟩
  | giveUp h | unregUnlock h => exact (hf.keeps (howner rfl)).listed hbody
  | regPrevious h => exact ⟨hbody.1, hf.nReaders.trans hbody.2⟩
  | regNext h | unregPrevious h =>
    exact ⟨hf.ready hout hbody.1, (hf.keeps (howner rfl)).listed hbody.2⟩
  | regLink h =>
    have hkeeps := hf.keeps (howner rfl)
    obtain ⟨hready, hlisted, hnext⟩ := hbody
    refine ⟨hf.ready hout hready, hkeeps.listed hlisted, ?_⟩
    rw [hkeeps.next, hkeeps.readers, hnext]
  | regHead h => exact ⟨hf.ready hout hbody.1, (hf.keeps (howner rfl)).joining hbody.2⟩
  | regUnlock h =>
    exact ⟨⟨hbody.1.1, hf.nReaders.trans hbody.1.2⟩, (hf.keeps (howner rfl)).listed hbody.2⟩
  | unregNext h => exact ⟨hf.ready hout hbody.1, (hf.keeps (howner rfl)).leaving hbody.2⟩
  | readNest h => exact ⟨hbody.1, hf.nReaders.trans_ne hbody.2⟩
  | readCheck b h | readBack b h => exact ⟨hbody.1, hf.nReaders.trans hbody.2⟩

/-- What a thread knows stays true. -/
theorem mono (hf : Frame i m m') (h : At few i m pc) : At few i m' pc where
  owner := hf.owner.trans h.owner
  depth := hf.depth.trans h.depth
  listed := hf.listed.trans h.listed
  count hcounted := by rw [hf.nReaders, hf.depth, h.count hcounted]
  idle := h.idle
  writes hwriting := by
    have howner := h.owner.mpr (Pc.owns_of_writing hwriting)
    exact (hf.keeps howner).writes (h.writes hwriting)
  body := hf.body h

end Frame

end ConcurrencyKit.Brlock
