import ConcurrencyKit.Stack.Model
import ConcurrencyKit.Misc.Places

/-!
# What a stack of `ck_stack` relies on

A consumer compares and swaps the pair `(head, generation)`. If the generation is the one it has
loaded, nothing has been removed since, so the entry it has found at the top is still on the
stack and still has the same `next`, although the entry may have been a different one when the
generation was loaded. This needs every removal to advance the generation together with `head`.
`ck_stack_batch_pop_mpmc_wf` advances it earlier. A consumer that looks at `head` between its two
steps knows nothing any more once the batch has swapped `head`: its snapshot is then `Stale`.
-/

namespace ConcurrencyKit.Stack

open Lifo (Op Next Chain)
open Linear (Legal)
open Threads (Invariant System)

variable {N ι : Type}

/-- The chain of entries from `head` is what is on the stack. -/
structure Inv (W : Nat) (m : Mem N ι) : Prop where
  chain : Chain m.next m.head m.contents
  nodup : m.contents.Nodup
  generation : m.generation = m.removals % W
  seen : ∀ i, m.seen i ≤ m.swaps
  inside : ∀ x, m.place x = .inside ↔ x ∈ m.contents
  legal : Legal Next [] (m.events.map Prod.snd) m.contents

/-- Thread `i` has loaded the generation `g` after `n` removals. -/
def Loaded (W : Nat) (m : Mem N ι) (i : ι) (g n : Nat) : Prop :=
  g = n % W ∧ m.born i ≤ n ∧ n ≤ m.removals

/-- What thread `i` knows. -/
def At (W : Nat) (i : ι) (m : Mem N ι) : Pc N → Prop
  | .pushHead _ e | .pushNext _ e _ => m.place e = .held i
  | .pushCas _ e stack => m.place e = .held i ∧ m.next e = stack
  | .popGeneration _ => m.born i ≤ m.removals
  | .popHead _ g => ∃ n, Loaded W m i g n
  | .popNext k g h => k ≠ .batchPop ∧ ∃ n, Loaded W m i g n ∧
      (n = m.removals → m.seen i = m.swaps → h ∈ m.contents)
  | .popCas k g h next => ∃ n, Loaded W m i g n ∧
      (k ≠ .batchPop → n = m.removals → m.seen i = m.swaps → h ∈ m.contents ∧ m.next h = next)
  | _ => True

/-- The next access takes an entry from `head`, which a batch has swapped since the snapshot. -/
def Stale (i : ι) (m : Mem N ι) : Pc N → Prop
  | .popCas k g h _ =>
    k ≠ .batchPop ∧ (m.head = some h ∧ m.generation = g) ∧ m.seen i ≠ m.swaps
  | _ => False

instance [DecidableEq N] (i : ι) (m : Mem N ι) : (pc : Pc N) → Decidable (Stale i m pc)
  | .popCas k g h _ =>
    inferInstanceAs (Decidable
      (k ≠ .batchPop ∧ (m.head = some h ∧ m.generation = g) ∧ m.seen i ≠ m.swaps))
  | .idle | .pushHead _ _ | .pushNext _ _ _ | .pushCas _ _ _ | .popGeneration _ | .popHead _ _
  | .popNext _ _ _ | .wfAdd | .wfSwap | .done _ => inferInstanceAs (Decidable False)

section Changes

variable [DecidableEq N] [DecidableEq ι]

/-- What a step of thread `i` can do to the stack. -/
inductive Change (W : Nat) (may : Kind → Prop) (i : ι) (m : Mem N ι) : Mem N ι → Prop
  | stay : Change W may i m m
  | look : Change W may i m (m.see i)
  | enter : Change W may i m (m.begin i)
  | hold (e : N) (outside : m.place e = .outside) :
      Change W may i m ((m.move e (.held i)).begin i)
  | store (e : N) (v : Option N) (held : m.place e = .held i) :
      Change W may i m (m.storeNext e v)
  | put (e : N) (held : m.place e = .held i) (linked : m.next e = m.head) :
      Change W may i m ((m.put e).finish i (.push e))
  | release (e : N) (held : m.place e = .held i) :
      Change W may i m ((m.move e .outside).finish i .miss)
  | take (h : N) (rest : List N) (top : m.contents = h :: rest) :
      Change W may i m (((m.take h (m.next h)).advance W).finish i (.pop (some h)))
  | clear : Change W may i m ((m.clear.advance W).finish i (.popAll m.contents))
  | add : Change W may i m (m.advance W)
  | swap (allowed : may .batchPopWf) : Change W may i m (m.swap.finish i (.popAll m.contents))
  | note (op : Op N) (legal : Next m.contents op m.contents) : Change W may i m (m.finish i op)

variable {W : Nat} {may : Kind → Prop} {i j : ι} {m m' : Mem N ι}

omit [DecidableEq N] [DecidableEq ι] in
/-- The history with one more operation. -/
theorem Inv.legal_snoc (hi : Inv W m) {op : Op N} {contents : List N}
    (h : Next m.contents op contents) :
    Legal Next [] ((m.events ++ [(i, op)]).map Prod.snd) contents := by
  rw [List.map_append]
  exact hi.legal.snoc op h

omit [DecidableEq N] [DecidableEq ι] in
/-- Advancing the generation. -/
theorem Inv.generation_succ (hi : Inv W m) :
    (m.generation + 1) % W = (m.removals + 1) % W := by
  rw [hi.generation, Nat.mod_add_mod]

omit [DecidableEq N] [DecidableEq ι] in
/-- An entry that is not inside is not on the stack. -/
theorem Inv.not_mem (hi : Inv W m) {e : N} {p : Place ι} (h : m.place e = p) (hp : p ≠ .inside) :
    e ∉ m.contents := by
  intro hm
  rw [← hi.inside, h] at hm
  exact hp hm

omit [DecidableEq ι] in
/-- Moving an entry that is not on the stack and stays outside of it. -/
theorem Inv.inside_move (hi : Inv W m) {e : N} {p q : Place ι} (h : m.place e = p)
    (hp : p ≠ .inside) (hq : q ≠ .inside) (x : N) :
    Function.update m.place e q x = .inside ↔ x ∈ m.contents :=
  Places.elsewhere hi.inside h hp hq x

omit [DecidableEq ι] in
theorem inside_clear (hi : Inv W m) (x : N) : m.clear.place x = .inside ↔ x ∈ ([] : List N) := by
  simp only [Mem.clear, List.not_mem_nil, iff_false]
  by_cases hx : x ∈ m.contents
  · rw [if_pos hx]
    exact nofun
  · rw [if_neg hx, hi.inside]
    exact hx

omit [DecidableEq ι] in
theorem inside_take (hi : Inv W m) {h : N} {rest : List N} (top : m.contents = h :: rest) (x : N) :
    Function.update m.place h .outside x = .inside ↔ x ∈ rest := by
  have hnodup := hi.nodup
  rw [top, List.nodup_cons] at hnodup
  rw [Places.depart hi.inside (by simp), top, List.mem_cons]
  constructor
  · exact fun ⟨hx, hm⟩ => hm.resolve_left hx
  · intro hm
    refine ⟨?_, .inr hm⟩
    rintro rfl
    exact hnodup.1 hm

theorem Change.inv (hi : Inv W m) (h : Change W may i m m') : Inv W m' := by
  cases h with
  | stay => exact hi
  | look =>
    refine { hi with seen := fun j => ?_ }
    show Function.update m.seen i m.swaps j ≤ m.swaps
    by_cases hj : j = i
    · rw [hj, Function.update_self]
    · rw [Function.update_of_ne hj]
      exact hi.seen j
  | enter => exact { hi with }
  | hold e outside =>
    exact { hi with inside := hi.inside_move outside nofun nofun }
  | store e v held => exact { hi with chain := hi.chain.update (hi.not_mem held nofun) v }
  | put e held linked =>
    have hout := hi.not_mem held nofun
    refine
      { chain := ⟨rfl, ?_⟩
        nodup := List.nodup_cons.mpr ⟨hout, hi.nodup⟩
        generation := hi.generation
        seen := hi.seen
        inside := fun x => ?_
        legal := hi.legal_snoc (.push e hout) }
    · show Chain m.next (m.next e) m.contents
      rw [linked]
      exact hi.chain
    · show Function.update m.place e .inside x = .inside ↔ x ∈ e :: m.contents
      rw [Places.arrive hi.inside, List.mem_cons]
  | release e held =>
    exact
      { hi with
        inside := hi.inside_move held nofun nofun
        legal := hi.legal_snoc (.miss _) }
  | take h rest top =>
    have hchain := hi.chain
    have hnodup := hi.nodup
    rw [top] at hchain hnodup
    have htail : m.contents.tail = rest := by rw [top]; rfl
    refine ⟨?_, ?_, hi.generation_succ, hi.seen, fun x => ?_, ?_⟩
    · show Chain m.next (m.next h) m.contents.tail
      rw [htail]
      exact hchain.2
    · show m.contents.tail.Nodup
      rw [htail]
      exact (List.nodup_cons.mp hnodup).2
    · show Function.update m.place h .outside x = .inside ↔ x ∈ m.contents.tail
      rw [htail]
      exact inside_take hi top x
    · show Legal Next [] _ m.contents.tail
      refine hi.legal_snoc ?_
      rw [htail, top]
      exact .pop h rest
  | clear =>
    exact ⟨rfl, List.nodup_nil, hi.generation_succ, hi.seen, inside_clear hi,
      hi.legal_snoc (.popAll _)⟩
  | add => exact { hi with generation := hi.generation_succ }
  | swap allowed =>
    exact ⟨rfl, List.nodup_nil, hi.generation, fun j => Nat.le_succ_of_le (hi.seen j),
      inside_clear hi, hi.legal_snoc (.popAll _)⟩
  | note op legal => exact { hi with legal := hi.legal_snoc legal }

/-- What the threads that do not make a step can rely on. -/
structure Frame (i : ι) (m m' : Mem N ι) : Prop where
  removals : m.removals ≤ m'.removals
  born : ∀ j ≠ i, m'.born j = m.born j
  swaps : m.swaps ≤ m'.swaps
  seen : ∀ j ≠ i, m'.seen j = m.seen j
  held : ∀ j ≠ i, ∀ e, m.place e = .held j → m'.place e = .held j ∧ m'.next e = m.next e
  /-- While the generation stays and no batch swaps `head`, what is on the stack stays there. -/
  kept : m'.removals = m.removals → m'.swaps = m.swaps →
    ∀ x ∈ m.contents, x ∈ m'.contents ∧ m'.next x = m.next x

omit [DecidableEq ι] in
/-- An entry that thread `j` holds is not the one that is moved. -/
theorem held_update {e e' : N} {p : Place ι} (h : m.place e = .held j)
    (hne : m.place e' ≠ .held j) : Function.update m.place e' p e = .held j :=
  Places.stays h hne

omit [DecidableEq ι] in
theorem held_clear (hi : Inv W m) {e : N} (h : m.place e = .held j) :
    m.clear.place e = .held j := by
  simp only [Mem.clear, if_neg (hi.not_mem h nofun)]
  exact h

omit [DecidableEq N] [DecidableEq ι] in
theorem held_ne (hj : j ≠ i) {e : N} (h : m.place e = .held i) : m.place e ≠ .held j := by
  rw [h]
  intro he
  cases he
  exact hj rfl

theorem Change.frame (hi : Inv W m) (h : Change W may i m m') : Frame i m m' := by
  cases h with
  | stay =>
    exact ⟨le_rfl, fun _ _ => rfl, le_rfl, fun _ _ => rfl, fun _ _ _ h => ⟨h, rfl⟩,
      fun _ _ _ hx => ⟨hx, rfl⟩⟩
  | look =>
    exact ⟨le_rfl, fun _ _ => rfl, le_rfl, fun _ hj => Function.update_of_ne hj _ _,
      fun _ _ _ h => ⟨h, rfl⟩, fun _ _ _ hx => ⟨hx, rfl⟩⟩
  | enter =>
    exact ⟨le_rfl, fun _ hj => Function.update_of_ne hj _ _, le_rfl, fun _ _ => rfl,
      fun _ _ _ h => ⟨h, rfl⟩, fun _ _ _ hx => ⟨hx, rfl⟩⟩
  | hold e outside =>
    refine ⟨le_rfl, fun _ hj => Function.update_of_ne hj _ _, le_rfl, fun _ _ => rfl,
      fun j hj e' h => ⟨held_update h ?_, rfl⟩, fun _ _ _ hx => ⟨hx, rfl⟩⟩
    rw [outside]
    exact nofun
  | store e v held =>
    refine ⟨le_rfl, fun _ _ => rfl, le_rfl, fun _ _ => rfl, fun j hj e' h => ⟨h, ?_⟩,
      fun _ _ x hx => ⟨hx, ?_⟩⟩
    · refine Function.update_of_ne ?_ _ _
      rintro rfl
      exact held_ne hj held h
    · refine Function.update_of_ne ?_ _ _
      rintro rfl
      exact hi.not_mem held nofun hx
  | put e held linked =>
    exact ⟨le_rfl, fun _ _ => rfl, le_rfl, fun _ _ => rfl,
      fun j hj e' h => ⟨held_update h (held_ne hj held), rfl⟩,
      fun _ _ _ hx => ⟨List.mem_cons_of_mem _ hx, rfl⟩⟩
  | release e held =>
    exact ⟨le_rfl, fun _ _ => rfl, le_rfl, fun _ _ => rfl,
      fun j hj e' h => ⟨held_update h (held_ne hj held), rfl⟩, fun _ _ _ hx => ⟨hx, rfl⟩⟩
  | take h rest top =>
    refine ⟨Nat.le_succ _, fun _ _ => rfl, le_rfl, fun _ _ => rfl,
      fun j hj e' h' => ⟨held_update h' ?_, rfl⟩, fun he => absurd he (Nat.succ_ne_self _)⟩
    rw [(hi.inside h).mpr (top ▸ List.mem_cons_self)]
    exact nofun
  | clear =>
    exact ⟨Nat.le_succ _, fun _ _ => rfl, le_rfl, fun _ _ => rfl,
      fun j hj e' h => ⟨held_clear hi h, rfl⟩, fun he => absurd he (Nat.succ_ne_self _)⟩
  | add =>
    exact ⟨Nat.le_succ _, fun _ _ => rfl, le_rfl, fun _ _ => rfl, fun _ _ _ h => ⟨h, rfl⟩,
      fun he => absurd he (Nat.succ_ne_self _)⟩
  | swap allowed =>
    exact ⟨le_rfl, fun _ _ => rfl, Nat.le_succ _, fun _ _ => rfl,
      fun j hj e' h => ⟨held_clear hi h, rfl⟩, fun _ he => absurd he (Nat.succ_ne_self _)⟩
  | note op legal =>
    exact ⟨le_rfl, fun _ _ => rfl, le_rfl, fun _ _ => rfl, fun _ _ _ h => ⟨h, rfl⟩,
      fun _ _ _ hx => ⟨hx, rfl⟩⟩

omit [DecidableEq N] [DecidableEq ι] in
theorem Loaded.frame (hf : Frame i m m') (hj : j ≠ i) {g n : Nat} (h : Loaded W m j g n) :
    Loaded W m' j g n :=
  ⟨h.1, (hf.born j hj).le.trans h.2.1, h.2.2.trans hf.removals⟩

omit [DecidableEq N] [DecidableEq ι] in
/-- A removal count that is current after a step of another thread was current before it. -/
theorem Loaded.current (hf : Frame i m m') {g n : Nat} (h : Loaded W m j g n)
    (hn : n = m'.removals) : n = m.removals ∧ m'.removals = m.removals := by
  have h1 := h.2.2
  have h2 := hf.removals
  omega

omit [DecidableEq N] [DecidableEq ι] in
/-- So was a snapshot. -/
theorem Inv.current (hi : Inv W m) (hf : Frame i m m') (hj : j ≠ i) (hs : m'.seen j = m'.swaps) :
    m.seen j = m.swaps ∧ m'.swaps = m.swaps := by
  have h1 := hi.seen j
  have h2 := hf.swaps
  rw [hf.seen j hj] at hs
  omega

omit [DecidableEq N] [DecidableEq ι] in
/-- What a thread knows outlasts the steps of the others. -/
theorem At.frame (hi : Inv W m) (hf : Frame i m m') (hj : j ≠ i) {pc : Pc N} (h : At W j m pc) :
    At W j m' pc := by
  cases pc with
  | pushHead k e => exact (hf.held j hj e h).1
  | pushNext k e stack => exact (hf.held j hj e h).1
  | pushCas k e stack =>
    obtain ⟨hplace, hnext⟩ := hf.held j hj e h.1
    exact ⟨hplace, hnext.trans h.2⟩
  | popGeneration k =>
    show m'.born j ≤ m'.removals
    rw [hf.born j hj]
    exact le_trans h hf.removals
  | popHead k g =>
    obtain ⟨n, hl⟩ := h
    exact ⟨n, hl.frame hf hj⟩
  | popNext k g h' =>
    obtain ⟨hk, n, hl, hn⟩ := h
    refine ⟨hk, n, hl.frame hf hj, fun he hs => ?_⟩
    obtain ⟨hcur, hsame⟩ := hl.current hf he
    obtain ⟨hseen, hswaps⟩ := hi.current hf hj hs
    exact (hf.kept hsame hswaps _ (hn hcur hseen)).1
  | popCas k g h' next =>
    obtain ⟨n, hl, hn⟩ := h
    refine ⟨n, hl.frame hf hj, fun hk he hs => ?_⟩
    obtain ⟨hcur, hsame⟩ := hl.current hf he
    obtain ⟨hseen, hswaps⟩ := hi.current hf hj hs
    obtain ⟨hmem, hnext⟩ := hn hk hcur hseen
    obtain ⟨hmem', hnext'⟩ := hf.kept hsame hswaps _ hmem
    exact ⟨hmem', hnext'.trans hnext⟩
  | _ => trivial

end Changes

end ConcurrencyKit.Stack
