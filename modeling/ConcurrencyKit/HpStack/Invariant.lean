import ConcurrencyKit.HpStack.Model
import ConcurrencyKit.Misc.Places

/-!
# What the stack of `ck_hp_stack` relies on

A thread that has stored an entry in its hazard slot and then found it at the top of the stack is
its `Guard`: until the slot is overwritten the entry is not pushed again, so while it is on the
stack its `next` does not change, and once it has been popped it is not at the top any more.
-/

namespace ConcurrencyKit.HpStack

open Lifo (Op Next Chain)
open Linear (Legal)
open Stack (Pusher)

variable {N ι : Type}

/-- The chain of entries from `head` is what is on the stack. -/
structure Inv (m : Mem N ι) : Prop where
  chain : Chain m.next m.head m.contents
  nodup : m.contents.Nodup
  inside : ∀ x, m.place x = .inside ↔ x ∈ m.contents
  legal : Legal Next [] (m.events.map Prod.snd) m.contents

/-- The slot of thread `i` protects the entry `x`. -/
structure Guard (m : Mem N ι) (i : ι) (x : N) : Prop where
  hazard : m.hazard i = some x
  kept : m.place x = .inside ∨ m.place x = .retired ∧ m.scanned x i = false

/-- What thread `i` knows. -/
def At (i : ι) (m : Mem N ι) : Pc N → Prop
  | .pushHead _ e | .pushNext _ e _ => m.place e = .held i
  | .pushCas _ e stack => m.place e = .held i ∧ m.next e = stack
  | .popCheck e | .popUpdate e | .tryCheck e => m.hazard i = some e
  | .popReload e => m.hazard i = e
  | .popNext _ e => Guard m i e
  | .popCas _ e n => Guard m i e ∧ (e ∈ m.contents → m.sound i = true ∧ m.next e = n)
  | _ => True

section Changes

variable [DecidableEq N] [DecidableEq ι]

/-- What a step of thread `i` can do to the stack. -/
inductive Change (i : ι) (m : Mem N ι) : Mem N ι → Prop
  | stay : Change i m m
  | hold (e : N) (outside : m.place e = .outside) : Change i m (m.move e (.held i))
  | store (e : N) (v : Option N) (held : m.place e = .held i) : Change i m (m.storeNext e v)
  | put (e : N) (held : m.place e = .held i) (linked : m.next e = m.head) :
      Change i m ((m.put e).finish i (.push e))
  | release (e : N) (held : m.place e = .held i) :
      Change i m ((m.move e .outside).finish i .miss)
  | set (x : Option N) : Change i m (m.setHazard i x)
  | leave : Change i m ((m.setHazard i none).finish i .miss)
  | load (e : N) : Change i m (m.loaded i e)
  | take (h : N) (rest : List N) (top : m.contents = h :: rest) :
      Change i m ((m.take h (m.next h)).finish i (.pop (some h)))
  | scan (x : N) (j : ι) (clear : m.hazard j ≠ some x) : Change i m (m.scan x j)
  | reclaim (x : N) (retired : m.place x = .retired) (clear : ∀ j, m.scanned x j = true) :
      Change i m (m.move x .outside)
  | note (op : Op N) (legal : Next m.contents op m.contents) : Change i m (m.finish i op)

variable {i j : ι} {m m' : Mem N ι} {e x : N}

/-! ### The invariant of the stack -/

omit [DecidableEq N] [DecidableEq ι] in
/-- The history with one more operation. -/
theorem Inv.legal_snoc (hi : Inv m) {op : Op N} {contents : List N}
    (h : Next m.contents op contents) :
    Legal Next [] ((m.events ++ [(i, op)]).map Prod.snd) contents := by
  rw [List.map_append]
  exact hi.legal.snoc op h

omit [DecidableEq N] [DecidableEq ι] in
/-- An entry that is not inside is not on the stack. -/
theorem Inv.not_mem (hi : Inv m) {p : Place ι} (h : m.place e = p) (hp : p ≠ .inside) :
    e ∉ m.contents :=
  Places.not_mem hi.inside h hp

omit [DecidableEq ι] in
theorem Inv.put (hi : Inv m) (held : m.place e = .held i) (linked : m.next e = m.head) :
    Inv ((m.put e).finish i (.push e)) where
  chain := by
    refine ⟨rfl, ?_⟩
    show Chain m.next (m.next e) m.contents
    rw [linked]
    exact hi.chain
  nodup := List.nodup_cons.mpr ⟨hi.not_mem held nofun, hi.nodup⟩
  inside x := by
    show Function.update m.place e .inside x = .inside ↔ x ∈ e :: m.contents
    rw [List.mem_cons]
    exact Places.arrive hi.inside x
  legal := hi.legal_snoc (.push e (hi.not_mem held nofun))

omit [DecidableEq ι] in
theorem Inv.take (hi : Inv m) {rest : List N} (top : m.contents = e :: rest) :
    Inv ((m.take e (m.next e)).finish i (.pop (some e))) := by
  have hchain := hi.chain
  have hnodup := hi.nodup
  rw [top] at hchain hnodup
  have htail : m.contents.tail = rest := by rw [top]; rfl
  refine ⟨?_, ?_, fun x => ?_, hi.legal_snoc ?_⟩
  · show Chain m.next (m.next e) m.contents.tail
    rw [htail]
    exact hchain.2
  · show m.contents.tail.Nodup
    rw [htail]
    exact (List.nodup_cons.mp hnodup).2
  · show Function.update m.place e .retired x = .inside ↔ x ∈ m.contents.tail
    rw [Places.depart (q := .retired) hi.inside nofun, htail, top, List.mem_cons]
    refine ⟨fun ⟨hne, hm⟩ => hm.resolve_left hne, fun hm => ⟨?_, .inr hm⟩⟩
    rintro rfl
    exact (List.nodup_cons.mp hnodup).1 hm
  · show Next m.contents _ m.contents.tail
    rw [htail, top]
    exact .pop e rest

theorem Change.inv (hi : Inv m) (h : Change i m m') : Inv m' := by
  cases h with
  | stay => exact hi
  | hold e outside => exact { hi with inside := Places.elsewhere hi.inside outside nofun nofun }
  | store e v held => exact { hi with chain := hi.chain.update (hi.not_mem held nofun) v }
  | put e held linked => exact hi.put held linked
  | release e held =>
    exact
      { hi with
        inside := Places.elsewhere hi.inside held nofun nofun
        legal := hi.legal_snoc (.miss _) }
  | set x => exact { hi with }
  | leave => exact { hi with legal := hi.legal_snoc (.miss _) }
  | load e => exact { hi with }
  | take h rest top => exact hi.take top
  | scan x j clear => exact { hi with }
  | reclaim x retired clear =>
    exact { hi with inside := Places.elsewhere hi.inside retired nofun nofun }
  | note op legal => exact { hi with legal := hi.legal_snoc legal }

/-! ### What the other threads can rely on -/

omit [DecidableEq ι] in
/-- An entry that is protected does not leave the set of entries that may be in use when another
one is moved. -/
theorem Guard.move (hg : Guard m j x) {p q : Place ι} (he : m.place e = p)
    (hin : p ≠ .inside) (hret : p ≠ .retired) : Guard (m.move e q) j x where
  hazard := hg.hazard
  kept := by
    rcases hg.kept with h | ⟨h, hs⟩
    · exact .inl (Places.stays h (he ▸ hin))
    · exact .inr ⟨Places.stays h (he ▸ hret), hs⟩

/-- An entry that is protected does not pass a scan. -/
theorem Guard.scan (hg : Guard m j x) {y : N} {j' : ι} (clear : m.hazard j' ≠ some y) :
    Guard (m.scan y j') j x where
  hazard := hg.hazard
  kept := by
    rcases hg.kept with h | ⟨h, hs⟩
    · exact .inl h
    · refine .inr ⟨h, ?_⟩
      show Function.update m.scanned y _ x j = false
      by_cases hx : x = y
      · subst hx
        rw [Function.update_self, Function.update_of_ne]
        · exact hs
        · rintro rfl
          exact clear hg.hazard
      · rw [Function.update_of_ne hx]
        exact hs

omit [DecidableEq ι] in
/-- An entry that is popped is retired, and its scan begins. -/
theorem Guard.take (hg : Guard m j x) (h : N) (n : Option N) : Guard (m.take h n) j x where
  hazard := hg.hazard
  kept := by
    show Function.update m.place h .retired x = .inside ∨
      Function.update m.place h .retired x = .retired ∧
        Function.update m.scanned h (fun _ => false) x j = false
    by_cases hx : x = h
    · subst hx
      rw [Function.update_self, Function.update_self]
      exact .inr ⟨rfl, rfl⟩
    · rw [Function.update_of_ne hx, Function.update_of_ne hx]
      exact hg.kept

theorem Change.guard (h : Change i m m') (hj : j ≠ i) (hg : Guard m j x) : Guard m' j x := by
  cases h with
  | stay => exact hg
  | hold e outside => exact hg.move outside nofun nofun
  | store e v held => exact { hg with }
  | put e held linked =>
    obtain ⟨hz, hk⟩ : Guard (m.move e .inside) j x := hg.move held nofun nofun
    exact ⟨hz, hk⟩
  | release e held =>
    obtain ⟨hz, hk⟩ : Guard (m.move e .outside) j x := hg.move held nofun nofun
    exact ⟨hz, hk⟩
  | set y => exact ⟨(Function.update_of_ne hj _ _).trans hg.hazard, hg.kept⟩
  | leave => exact ⟨(Function.update_of_ne hj _ _).trans hg.hazard, hg.kept⟩
  | load e => exact { hg with }
  | take h rest top =>
    obtain ⟨hz, hk⟩ := hg.take h (m.next h)
    exact ⟨hz, hk⟩
  | scan y j' clear => exact hg.scan clear
  | reclaim y retired clear =>
    have hne : y ≠ x := by
      rintro rfl
      rcases hg.kept with h | ⟨-, hs⟩
      · rw [retired] at h
        cases h
      · rw [clear j] at hs
        cases hs
    refine ⟨hg.hazard, ?_⟩
    show Function.update m.place y .outside x = .inside ∨
      Function.update m.place y .outside x = .retired ∧ m.scanned x j = false
    rw [Function.update_of_ne hne.symm]
    exact hg.kept
  | note op legal => exact { hg with }

/-- What the threads that do not make a step can rely on. -/
structure Frame (i : ι) (m m' : Mem N ι) : Prop where
  hazard : ∀ j ≠ i, m'.hazard j = m.hazard j
  sound : ∀ j ≠ i, m'.sound j = m.sound j
  held : ∀ j ≠ i, ∀ e, m.place e = .held j → m'.place e = .held j ∧ m'.next e = m.next e
  guard : ∀ j ≠ i, ∀ x, Guard m j x → Guard m' j x
  /-- An entry that nobody is about to push and that is on the stack has been there before. -/
  stays : ∀ x, (∀ j, m.place x ≠ .held j) → x ∈ m'.contents → x ∈ m.contents ∧
    m'.next x = m.next x

omit [DecidableEq N] [DecidableEq ι] in
theorem held_ne (hj : j ≠ i) (h : m.place e = .held i) : m.place e ≠ .held j := by
  rw [h]
  intro he
  cases he
  exact hj rfl

theorem Change.frame (hi : Inv m) (h : Change i m m') : Frame i m m' := by
  have hguard := fun j (hj : j ≠ i) x => h.guard (x := x) hj
  cases h with
  | stay => exact ⟨fun _ _ => rfl, fun _ _ => rfl, fun _ _ _ h => ⟨h, rfl⟩, hguard,
      fun _ _ hx => ⟨hx, rfl⟩⟩
  | hold e outside =>
    refine ⟨fun _ _ => rfl, fun _ _ => rfl, fun j hj e' h => ⟨Places.stays h ?_, rfl⟩, hguard,
      fun _ _ hx => ⟨hx, rfl⟩⟩
    rw [outside]
    exact nofun
  | store e v held =>
    refine ⟨fun _ _ => rfl, fun _ _ => rfl, fun j hj e' h => ⟨h, ?_⟩, hguard,
      fun x hx hm => ⟨hm, ?_⟩⟩
    · refine Function.update_of_ne ?_ _ _
      rintro rfl
      exact held_ne hj held h
    · refine Function.update_of_ne ?_ _ _
      rintro rfl
      exact hx i held
  | put e held linked =>
    refine ⟨fun _ _ => rfl, fun _ _ => rfl,
      fun j hj e' h => ⟨Places.stays h (held_ne hj held), rfl⟩, hguard, fun x hx hm => ⟨?_, rfl⟩⟩
    rcases List.mem_cons.mp hm with rfl | hm
    · exact absurd held (hx i)
    · exact hm
  | release e held =>
    exact ⟨fun _ _ => rfl, fun _ _ => rfl,
      fun j hj e' h => ⟨Places.stays h (held_ne hj held), rfl⟩, hguard,
      fun _ _ hx => ⟨hx, rfl⟩⟩
  | set y =>
    exact ⟨fun _ hj => Function.update_of_ne hj _ _, fun _ _ => rfl, fun _ _ _ h => ⟨h, rfl⟩,
      hguard, fun _ _ hx => ⟨hx, rfl⟩⟩
  | leave =>
    exact ⟨fun _ hj => Function.update_of_ne hj _ _, fun _ _ => rfl, fun _ _ _ h => ⟨h, rfl⟩,
      hguard, fun _ _ hx => ⟨hx, rfl⟩⟩
  | load e =>
    exact ⟨fun _ _ => rfl, fun _ hj => Function.update_of_ne hj _ _, fun _ _ _ h => ⟨h, rfl⟩,
      hguard, fun _ _ hx => ⟨hx, rfl⟩⟩
  | take h rest top =>
    refine ⟨fun _ _ => rfl, fun _ _ => rfl, fun j hj e' h' => ⟨Places.stays h' ?_, rfl⟩, hguard,
      fun _ _ hx => ⟨List.mem_of_mem_tail hx, rfl⟩⟩
    rw [(hi.inside h).mpr (top ▸ List.mem_cons_self)]
    exact nofun
  | scan y j' clear =>
    exact ⟨fun _ _ => rfl, fun _ _ => rfl, fun _ _ _ h => ⟨h, rfl⟩, hguard,
      fun _ _ hx => ⟨hx, rfl⟩⟩
  | reclaim y retired clear =>
    refine ⟨fun _ _ => rfl, fun _ _ => rfl, fun j hj e' h => ⟨Places.stays h ?_, rfl⟩, hguard,
      fun _ _ hx => ⟨hx, rfl⟩⟩
    rw [retired]
    exact nofun
  | note op legal =>
    exact ⟨fun _ _ => rfl, fun _ _ => rfl, fun _ _ _ h => ⟨h, rfl⟩, hguard,
      fun _ _ hx => ⟨hx, rfl⟩⟩

omit [DecidableEq N] [DecidableEq ι] in
theorem Guard.not_held (hg : Guard m i x) (j : ι) : m.place x ≠ .held j := by
  rcases hg.kept with h | ⟨h, -⟩
  · rw [h]
    exact nofun
  · rw [h]
    exact nofun

omit [DecidableEq N] [DecidableEq ι] in
/-- What a thread knows outlasts the steps of the others. -/
theorem At.frame (hf : Frame i m m') (hj : j ≠ i) {pc : Pc N} (h : At j m pc) : At j m' pc := by
  cases pc with
  | pushHead k e => exact (hf.held j hj e h).1
  | pushNext k e stack => exact (hf.held j hj e h).1
  | pushCas k e stack =>
    obtain ⟨hplace, hnext⟩ := hf.held j hj e h.1
    exact ⟨hplace, hnext.trans h.2⟩
  | popCheck e => exact (hf.hazard j hj).trans h
  | popUpdate e => exact (hf.hazard j hj).trans h
  | tryCheck e => exact (hf.hazard j hj).trans h
  | popReload e => exact (hf.hazard j hj).trans h
  | popNext k e => exact hf.guard j hj e h
  | popCas k e n =>
    obtain ⟨hg, hn⟩ := h
    refine ⟨hf.guard j hj e hg, fun hm => ?_⟩
    obtain ⟨hm', hnext⟩ := hf.stays e hg.not_held hm
    obtain ⟨hs, he⟩ := hn hm'
    exact ⟨(hf.sound j hj).trans hs, hnext.trans he⟩
  | _ => trivial

end Changes

end ConcurrencyKit.HpStack
