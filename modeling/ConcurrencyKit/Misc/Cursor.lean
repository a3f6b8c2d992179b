import ConcurrencyKit.Misc.Beside
import ConcurrencyKit.Misc.Contents
import ConcurrencyKit.Misc.Tally
import Mathlib.Data.List.Nodup

/-!
# Walking through an array

A cursor goes through the slots of an array, one after the other, and leaves out those that are
vacant. Each call goes on behind the slot that the last one has returned. As long as the array stays
as it is, the calls return what is in its slots, in their order, and then nothing (`yields_slots`).

A walk may also go on beside a writer that changes the slots of the array and may put another array
in its place. It stays with the array that it has begun with. Each slot is loaded once, so what is
in a slot throughout the walk is returned, and whatever is returned was in its slot while the array
was the current one (`Ended`).
-/

namespace ConcurrencyKit.Cursor

variable {W : Type}

/-- The slots from `offset` on, of which there are `n`. -/
def loop (slot : Nat → Option W) : Nat → Nat → Option W × Nat
  | 0, offset => (none, offset)
  | n + 1, offset =>
    match slot offset with
    | some w => (some w, offset + 1)
    | none => loop slot n (offset + 1)

/-- A call with the cursor at `offset`: what it returns, and where it leaves the cursor. -/
def next (slot : Nat → Option W) (capacity offset : Nat) : Option W × Nat :=
  if capacity ≤ offset then (none, offset) else loop slot (capacity - offset) offset

/-- Calls that are made until one of them returns nothing. -/
inductive Yields (next : Nat → Option W × Nat) : Nat → List W → Prop
  | stop {offset : Nat} (h : (next offset).1 = none) : Yields next offset []
  | more {offset offset' : Nat} {w : W} {l : List W} (h : next offset = (some w, offset'))
      (rest : Yields next offset' l) : Yields next offset (w :: l)

/-- What is in the slots from `offset` on. -/
def slots (slot : Nat → Option W) (offset n : Nat) : List W :=
  (List.range' offset n).filterMap slot

variable {slot : Nat → Option W} {capacity offset n : Nat} {w : W}

theorem slots_succ :
    slots slot offset (n + 1) = (slot offset).toList ++ slots slot (offset + 1) n := by
  cases h : slot offset <;> simp [slots, List.range'_succ, h]

/-- The loop stops at the first slot that is not vacant. -/
theorem loop_cases (slot : Nat → Option W) (n offset : Nat) :
    ((loop slot n offset).1 = none ∧ slots slot offset n = []) ∨
      ∃ w k, k < n ∧ loop slot n offset = (some w, offset + (k + 1)) ∧
        slots slot offset n = w :: slots slot (offset + (k + 1)) (n - (k + 1)) := by
  induction n generalizing offset with
  | zero => exact .inl ⟨rfl, rfl⟩
  | succ n ih =>
    rw [slots_succ, loop]
    cases hslot : slot offset with
    | some w => exact .inr ⟨w, 0, n.succ_pos, rfl, rfl⟩
    | none =>
      rcases ih (offset + 1) with ⟨hnone, hnil⟩ | ⟨w, k, hk, hloop, hcons⟩
      · exact .inl ⟨hnone, hnil⟩
      · have hoffset : offset + 1 + (k + 1) = offset + (k + 1 + 1) := by omega
        have hrest : n - (k + 1) = n + 1 - (k + 1 + 1) := by omega
        rw [hoffset] at hloop hcons
        rw [hrest] at hcons
        exact .inr ⟨w, k + 1, Nat.succ_lt_succ hk, hloop, hcons⟩

/-- The calls return what is in the slots that are ahead. -/
theorem yields_from (h : offset ≤ capacity) :
    Yields (next slot capacity) offset (slots slot offset (capacity - offset)) := by
  obtain ⟨n, hn⟩ : ∃ n, n = capacity - offset := ⟨_, rfl⟩
  induction n using Nat.strong_induction_on generalizing offset with
  | _ n ih =>
    by_cases hle : capacity ≤ offset
    · have hzero : capacity - offset = 0 := by omega
      rw [hzero]
      exact .stop (by rw [next, if_pos hle])
    · have hnext : next slot capacity offset = loop slot (capacity - offset) offset := if_neg hle
      rcases loop_cases slot (capacity - offset) offset with
        ⟨hnone, hnil⟩ | ⟨w, k, hk, hloop, hcons⟩
      · rw [hnil]
        exact .stop (hnext ▸ hnone)
      · have hrest : capacity - offset - (k + 1) = capacity - (offset + (k + 1)) := by omega
        rw [hcons, hrest]
        refine .more (hnext.trans hloop) (ih _ ?_ (by omega) rfl)
        omega

/-- From the start on, they return everything in the array. -/
theorem yields_slots (slot : Nat → Option W) (capacity : Nat) :
    Yields (next slot capacity) 0 (slots slot 0 capacity) :=
  yields_from (Nat.zero_le capacity)

theorem mem_slots : w ∈ slots slot 0 capacity ↔ ∃ s < capacity, slot s = some w := by
  simp [slots]

theorem length_slots {α : Type} (f : Nat → α) (g : α → Option W) :
    (slots (fun s => g (f s)) 0 capacity).length = tally (fun a => (g a).isSome) f capacity := by
  induction capacity with
  | zero => rfl
  | succ n ih =>
    rw [tally_succ, ← ih, slots, List.range'_concat, List.filterMap_append, List.length_append]
    cases h : g (f n) <;> simp [slots, h]

/-- The things returned, apart from their order. -/
theorem coe_slots {α : Type} {p : α → Bool} (f : Nat → α) (g : α → Option W)
    (hp : ∀ a, p a = (g a).isSome) :
    (slots (fun s => g (f s)) 0 capacity : Multiset W) =
      (contents p f capacity).filterMap g := by
  induction capacity with
  | zero => rfl
  | succ n ih =>
    have hlast : slots (fun s => g (f s)) 0 (n + 1) =
        slots (fun s => g (f s)) 0 n ++ (g (f n)).toList := by
      rw [slots, List.range'_concat, List.filterMap_append]
      cases h : g (f n) <;> simp [slots, h]
    rw [hlast, ← Multiset.coe_add, ih, contents, Multiset.filterMap_add, add_comm]
    congr 1
    unfold single
    rw [hp]
    cases h : g (f n) with
    | none => rfl
    | some w =>
      rw [Option.isSome_some, if_pos rfl, ← Multiset.cons_zero,
        Multiset.filterMap_cons_some g _ _ h]
      rfl

/-- What no two slots have in common, no two of the things returned have. -/
theorem pairwise_slots {R : W → W → Prop} (h : ∀ s s' w w', s < s' → slot s = some w →
    slot s' = some w' → R w w') : (slots slot 0 capacity).Pairwise R := by
  refine List.pairwise_filterMap.mpr ((List.pairwise_lt_range' 1).imp ?_)
  intro s s' hlt w hw w' hw'
  exact h s s' w w' hlt hw hw'

/-! ## Beside a writer -/

section Beside

open Beside (Call Program System)

variable {σ ι : Type}

/-- The arrays, numbered in the order in which they are put in place, and the number of the one
that is in place. -/
structure Shared (σ W : Type) where
  current : σ → Nat
  capacity : σ → Nat → Nat
  slot : σ → Nat → Nat → Option W

/-- Where a walk stands, with what it has returned so far and the slots where it has found it. -/
inductive Pc (W : Type) where
  | loadMap
  | check (map offset : Nat) (found : List (Nat × W))
  | loadSlot (map offset : Nat) (found : List (Nat × W))
  | ended (map : Nat) (found : List (Nat × W))
  deriving DecidableEq

variable {sh : Shared σ W}

/-- One step of a walk, with at most one load. -/
def Pc.load (sh : Shared σ W) (mem : σ) : Pc W → Pc W
  | .loadMap => .check (sh.current mem) 0 []
  | .check map offset found =>
    if sh.capacity mem map ≤ offset then .ended map found else .loadSlot map offset found
  | .loadSlot map offset found =>
    match sh.slot mem map offset with
    | some w => .check map (offset + 1) (found ++ [(offset, w)])
    | none =>
      if offset + 1 < sh.capacity mem map then .loadSlot map (offset + 1) found
      else .ended map found
  | .ended map found => .ended map found

def Pc.isEnded : Pc W → Bool
  | .ended _ _ => true
  | _ => false

/-- The calls of a walk, until one of them returns nothing. -/
def walk (sh : Shared σ W) : Program σ Unit (Pc W) where
  start := .loadMap
  load mem _ := Pc.load sh mem
  done := Pc.isEnded

/-- What the writer has to keep. -/
structure Guarantee (sh : Shared σ W) (Inv : σ → Prop) (write : σ → σ → Prop) : Prop where
  inv : ∀ {s s'}, Inv s → write s s' → Inv s'
  current_le : ∀ {s s'}, Inv s → write s s' → sh.current s ≤ sh.current s'
  /-- The size of an array does not change. -/
  capacity : ∀ {s s' map}, Inv s → write s s' → map ≤ sh.current s →
    sh.capacity s' map = sh.capacity s map
  /-- An array that is no longer in place does not change. -/
  retired : ∀ {s s' map}, Inv s → write s s' → map ≤ sh.current s → map ≠ sh.current s' →
    sh.slot s' map = sh.slot s map

/-- What has become of the slots below `offset`. -/
structure Walked (sh : Shared σ W) (moments : List σ) (map offset : Nat)
    (found : List (Nat × W)) : Prop where
  /-- The array has been in place meanwhile. -/
  placed : ∃ mem ∈ moments, sh.current mem = map
  /-- The slots are returned in their order, each at most once. -/
  sorted : (found.map Prod.fst).Pairwise (· < ·)
  below : ∀ e ∈ found, e.1 < offset
  /-- What is returned was in its slot when the array was in place. -/
  was : ∀ e ∈ found, ∃ mem ∈ moments, sh.current mem = map ∧ sh.slot mem map e.1 = some e.2
  /-- What is in its slot throughout is returned. -/
  kept : ∀ s w, s < offset →
    (∀ mem ∈ moments, map ≤ sh.current mem → sh.slot mem map s = some w) → (s, w) ∈ found

/-- A walk that has come to its end has been through all slots. -/
def Ended (sh : Shared σ W) (moments : List σ) (map : Nat) (found : List (Nat × W)) :
    Prop :=
  ∃ mem ∈ moments, map ≤ sh.current mem ∧ Walked sh moments map (sh.capacity mem map) found

/-- What is now in the slots was there when the array was in place. -/
structure Held (sh : Shared σ W) (mem : σ) (moments : List σ) (map : Nat) : Prop where
  le : map ≤ sh.current mem
  held : ∀ s w, sh.slot mem map s = some w →
    ∃ m ∈ moments, sh.current m = map ∧ sh.slot m map s = some w

/-- What is known about a walk from where it stands. -/
def At (sh : Shared σ W) (mem : σ) (c : Call σ Unit (Pc W)) : Prop :=
  match c.pc with
  | .loadMap => True
  | .check map offset found =>
    offset ≤ sh.capacity mem map ∧ Held sh mem c.moments map ∧ Walked sh c.moments map offset found
  | .loadSlot map offset found =>
    offset < sh.capacity mem map ∧ Held sh mem c.moments map ∧ Walked sh c.moments map offset found
  | .ended map found => Ended sh c.moments map found

variable {c : Call σ Unit (Pc W)} {moments : List σ} {mem mem' : σ} {map : Nat}
  {found : List (Nat × W)}

theorem Walked.observe (h : Walked sh moments map offset found) (mem : σ) :
    Walked sh (mem :: moments) map offset found where
  placed := by
    obtain ⟨m, hm, he⟩ := h.placed
    exact ⟨m, List.mem_cons_of_mem _ hm, he⟩
  sorted := h.sorted
  below := h.below
  was e he := by
    obtain ⟨m, hm, hslot⟩ := h.was e he
    exact ⟨m, List.mem_cons_of_mem _ hm, hslot⟩
  kept s w hs hall := h.kept s w hs fun m hm => hall m (List.mem_cons_of_mem _ hm)

/-- The writer makes a step. -/
theorem Held.write {Inv : σ → Prop} {write : σ → σ → Prop} (h : Held sh mem moments map)
    (hg : Guarantee sh Inv write) (hinv : Inv mem) (hw : write mem mem') :
    Held sh mem' (mem' :: moments) map where
  le := h.le.trans (hg.current_le hinv hw)
  held s w hslot := by
    by_cases hmap : map = sh.current mem'
    · exact ⟨mem', List.mem_cons_self, hmap.symm, hslot⟩
    · rw [hg.retired hinv hw h.le hmap] at hslot
      obtain ⟨m, hm, hrest⟩ := h.held s w hslot
      exact ⟨m, List.mem_cons_of_mem _ hm, hrest⟩

/-- A slot that is not vacant is returned. -/
theorem Walked.take (h : Walked sh moments map offset found) (hheld : Held sh mem moments map)
    (hmem : mem ∈ moments) (hslot : sh.slot mem map offset = some w) :
    Walked sh moments map (offset + 1) (found ++ [(offset, w)]) where
  placed := h.placed
  sorted := by
    rw [List.map_append, List.pairwise_append]
    refine ⟨h.sorted, List.pairwise_singleton _ _, fun s hs s' hs' => ?_⟩
    obtain ⟨e, he, rfl⟩ := List.mem_map.mp hs
    rw [List.mem_singleton.mp hs']
    exact h.below e he
  below e he := by
    rcases List.mem_append.mp he with he | he
    · exact (h.below e he).trans (Nat.lt_succ_self offset)
    · rw [List.mem_singleton.mp he]
      exact Nat.lt_succ_self offset
  was e he := by
    rcases List.mem_append.mp he with he | he
    · exact h.was e he
    · rw [List.mem_singleton.mp he]
      exact hheld.held offset w hslot
  kept s w' hs hall := by
    rcases Nat.lt_succ_iff_lt_or_eq.mp hs with hlt | rfl
    · exact List.mem_append_left _ (h.kept s w' hlt hall)
    · have hsame := hall mem hmem hheld.le
      rw [hslot] at hsame
      cases hsame
      exact List.mem_append_right _ (List.mem_singleton.mpr rfl)

/-- A slot that is vacant is passed. -/
theorem Walked.pass (h : Walked sh moments map offset found) (hheld : Held sh mem moments map)
    (hmem : mem ∈ moments) (hslot : sh.slot mem map offset = none) :
    Walked sh moments map (offset + 1) found where
  placed := h.placed
  sorted := h.sorted
  below e he := (h.below e he).trans (Nat.lt_succ_self offset)
  was := h.was
  kept s w hs hall := by
    rcases Nat.lt_succ_iff_lt_or_eq.mp hs with hlt | rfl
    · exact h.kept s w hlt hall
    · have hsame := hall mem hmem hheld.le
      rw [hslot] at hsame
      cases hsame

/-- The walk makes a step. -/
theorem At.load (hmem : mem ∈ c.moments) (h : At sh mem c) :
    At sh mem { c with pc := Pc.load sh mem c.pc } := by
  obtain ⟨key, pc, start, moments⟩ := c
  cases pc with
  | loadMap =>
    exact ⟨Nat.zero_le _, ⟨le_rfl, fun s w hslot => ⟨mem, hmem, rfl, hslot⟩⟩,
      ⟨mem, hmem, rfl⟩, List.Pairwise.nil, by simp, by simp, by simp⟩
  | check map offset found =>
    obtain ⟨hle, hheld, hwalked⟩ := h
    dsimp only [Pc.load]
    by_cases hend : sh.capacity mem map ≤ offset
    · rw [if_pos hend]
      rw [le_antisymm hle hend] at hwalked
      exact ⟨mem, hmem, hheld.le, hwalked⟩
    · rw [if_neg hend]
      exact ⟨Nat.lt_of_not_le hend, hheld, hwalked⟩
  | loadSlot map offset found =>
    obtain ⟨hlt, hheld, hwalked⟩ := h
    dsimp only [Pc.load]
    cases hslot : sh.slot mem map offset with
    | some w => exact ⟨hlt, hheld, hwalked.take hheld hmem hslot⟩
    | none =>
      have hpass := hwalked.pass hheld hmem hslot
      dsimp only
      by_cases hmore : offset + 1 < sh.capacity mem map
      · rw [if_pos hmore]
        exact ⟨hmore, hheld, hpass⟩
      · rw [if_neg hmore]
        have hlast : offset + 1 = sh.capacity mem map := le_antisymm hlt (Nat.le_of_not_lt hmore)
        rw [hlast] at hpass
        exact ⟨mem, hmem, hheld.le, hpass⟩
  | ended => exact h

variable {Inv : σ → Prop} {writes : σ → σ → Prop}

/-- The writer makes a step while the walk goes on. -/
theorem At.write (hg : Guarantee sh Inv writes) (hinv : Inv mem) (hw : writes mem mem')
    (hrun : c.pc.isEnded = false) (h : At sh mem c) :
    At sh mem' { c with moments := mem' :: c.moments } := by
  obtain ⟨key, pc, start, moments⟩ := c
  cases pc with
  | loadMap => exact trivial
  | check map offset found =>
    obtain ⟨hle, hheld, hwalked⟩ := h
    rw [← hg.capacity hinv hw hheld.le] at hle
    exact ⟨hle, hheld.write hg hinv hw, hwalked.observe mem'⟩
  | loadSlot map offset found =>
    obtain ⟨hlt, hheld, hwalked⟩ := h
    rw [← hg.capacity hinv hw hheld.le] at hlt
    exact ⟨hlt, hheld.write hg hinv hw, hwalked.observe mem'⟩
  | ended => cases hrun

theorem invariant (hg : Guarantee sh Inv writes) :
    Beside.Invariant (walk sh) writes Inv (At sh) where
  inv := hg.inv
  invoke _ _ := trivial
  write hinv hw hrun _ h := At.write hg hinv hw hrun h
  load _ _ hmem h := At.load hmem h
  done {s s' c} hdone h := by
    obtain ⟨key, pc, start, moments⟩ := c
    cases pc with
    | ended => exact h
    | loadMap | check | loadSlot => cases hdone

/-- What is known of every walk that has ended. -/
theorem reachable_ended [DecidableEq ι] (hg : Guarantee sh Inv writes) {mem₀ : σ} (hinit : Inv mem₀)
    {s : System σ Unit (Pc W) ι} (hr : System.Reachable (walk sh) writes mem₀ s) {i : ι}
    (hc : s.calls i = some c) (hended : c.pc = .ended map found) :
    Ended sh c.moments map found := by
  have h := (invariant hg).reachable hr hinit i c hc
  unfold At at h
  rw [hended] at h
  exact h

end Beside

end ConcurrencyKit.Cursor
