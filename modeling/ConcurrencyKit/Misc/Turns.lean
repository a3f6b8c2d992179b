import ConcurrencyKit.Misc.Fairness
import ConcurrencyKit.Misc.Visits
import Mathlib.Data.Prod.Lex

/-!
# Threads that take turns

Threads take tickets and are served in the order of their tickets. In a fair run everybody who has a
ticket is served: what it waits for is how many tickets there are before its own, and how far the
thread with the first ticket is from giving it back.
-/

namespace ConcurrencyKit.Turns

open Threads (System)
open Visits (Visit)
open Fairness (Fair Ranking Run)

variable {M P ι τ β : Type} [DecidableEq ι] [LT β]

/-- A program in which threads take turns. The first ticket is given back by a thread that has been
served, and whoever has it comes nearer to giving it back with every step. -/
structure Queueing (step : ι → M → P → M → P → Prop) (holds : P → Prop)
    (good : System M P ι → Prop) (tickets : M → Visits ι τ) (ticket : P → Option (Visit ι τ))
    (Served : P → Prop) (stage : P → β) : Prop where
  valid : ∀ {s}, good s → (tickets s.mem).Valid
  inOrder : ∀ {s}, good s → (tickets s.mem).InOrder
  owns : ∀ {s}, good s → ∀ i, (tickets s.mem).Owns i (ticket (s.pc i))
  left : ∀ {s i m p}, good s → step i s.mem (s.pc i) m p →
    (tickets m).left = (tickets s.mem).left ∨
      (tickets m).left = (tickets s.mem).left + 1 ∧ Served (s.pc i) ∧
        ∃ t, ticket (s.pc i) = some t ∧ t.number = (tickets s.mem).left
  stays : ∀ {s i m p t}, good s → step i s.mem (s.pc i) m p → ticket (s.pc i) = some t →
    ¬ Served (s.pc i) → ticket p = some t
  first : ∀ {s i m p t}, good s → step i s.mem (s.pc i) m p → ticket (s.pc i) = some t →
    t.number = (tickets s.mem).left → (tickets m).left = (tickets s.mem).left →
    ticket p = some t ∧ (stage p < stage (s.pc i) ∨ stage p = stage (s.pc i) ∧
      holds (s.pc i) ∧ holds p)

variable {step : ι → M → P → M → P → Prop} {ok : ι → M → P → Prop} {idle holds : P → Prop}
  {good : System M P ι → Prop} {tickets : M → Visits ι τ} {ticket : P → Option (Visit ι τ)}
  {Served : P → Prop} {stage : P → β} {s₀ s : System M P ι} {i j : ι} {t : Visit ι τ}

/-- Thread `i` waits with the ticket `t`, and thread `j` has the first one. -/
structure Helps (tickets : M → Visits ι τ) (ticket : P → Option (Visit ι τ)) (Served : P → Prop)
    (stage : P → β) (i : ι) (t : Visit ι τ) (a : Nat ×ₗ β) (j : ι) (s : System M P ι) : Prop where
  waits : ticket (s.pc i) = some t
  unserved : ¬ Served (s.pc i)
  first : ∃ u, ticket (s.pc j) = some u ∧ u.number = (tickets s.mem).left
  rank : a = toLex (t.number - (tickets s.mem).left, stage (s.pc j))

omit [LT β] [DecidableEq ι] in
/-- What a step of another thread leaves to the one with the first ticket. -/
theorem Helps.same {a : Nat ×ₗ β} {s' : System M P ι}
    (h : Helps tickets ticket Served stage i t a j s) (hwaits : ticket (s'.pc i) = some t)
    (hunserved : ¬ Served (s'.pc i)) (hleft : (tickets s'.mem).left = (tickets s.mem).left)
    (hticket : ticket (s'.pc j) = ticket (s.pc j)) (hstage : stage (s'.pc j) = stage (s.pc j)) :
    Helps tickets ticket Served stage i t a j s' := by
  obtain ⟨u, hu, hfirst⟩ := h.first
  refine ⟨hwaits, hunserved, ⟨u, hticket.trans hu, hfirst.trans hleft.symm⟩, ?_⟩
  rw [h.rank, hleft, hstage]

omit [DecidableEq ι] in
/-- While a thread waits somebody has the first ticket. -/
theorem Queueing.helps (hq : Queueing step holds good tickets ticket Served stage) (hs : good s)
    (hwaits : ticket (s.pc i) = some t) (hunserved : ¬ Served (s.pc i)) :
    ∃ j, Helps tickets ticket Served stage i t
      (toLex (t.number - (tickets s.mem).left, stage (s.pc j))) j s := by
  obtain ⟨ht, -⟩ := (hq.owns hs i t).mpr hwaits
  obtain ⟨u, hu, hfirst⟩ := (hq.inOrder hs).exists_first (hq.valid hs) ht
  have hown := (hq.owns hs u.owner u).mp ⟨hu, rfl⟩
  exact ⟨u.owner, hwaits, hunserved, ⟨u, hown, hfirst⟩, rfl⟩

theorem Queueing.ranking (hq : Queueing step holds good tickets ticket Served stage)
    (hidle : ∀ p t, ticket p = some t → ¬ idle p) (i : ι) (t : Visit ι τ) :
    Ranking step idle holds good (fun s => ticket (s.pc i) = some t ∧ Served (s.pc i))
      (Helps tickets ticket Served stage i t) where
  busy := by
    rintro a j s - ⟨-, -, ⟨u, hu, -⟩, -⟩
    exact hidle _ u hu
  next := by
    rintro a k j mem p s hs hs' hstep hh
    obtain ⟨hwaits, hunserved, ⟨u, hu, hfirst⟩, rfl⟩ := hh
    have hwaits' : ticket (Function.update s.pc k p i) = some t := by
      by_cases hik : i = k
      · subst hik
        rw [Function.update_self]
        exact hq.stays hs hstep hwaits hunserved
      · rwa [Function.update_of_ne hik]
    by_cases haim : Served (Function.update s.pc k p i)
    · exact .inl ⟨hwaits', haim⟩
    refine .inr ?_
    rcases hq.left hs hstep with hleft | ⟨hleft, hserved, v, hv, hnumber⟩
    · by_cases hkj : k = j
      · subst hkj
        obtain ⟨hticket, hstage⟩ := hq.first hs hstep hu hfirst hleft
        have hself : Function.update s.pc k p k = p := Function.update_self ..
        have hticket' : ticket (Function.update s.pc k p k) = some u := by rwa [hself]
        rcases hstage with hless | ⟨heq, hholds⟩
        · refine .inl ⟨_, k, ?_, hwaits', haim, ⟨u, hticket', hfirst.trans hleft.symm⟩, rfl⟩
          simp only [Prod.Lex.toLex_lt_toLex, hleft, hself]
          exact .inr ⟨trivial, hless⟩
        · refine .inr ⟨⟨hwaits', haim, ⟨u, hticket', hfirst.trans hleft.symm⟩, ?_⟩, fun _ => hholds⟩
          simp only [hleft, hself, heq]
      · have hother : Function.update s.pc k p j = s.pc j :=
          Function.update_of_ne (Ne.symm hkj) ..
        have hsame : Helps tickets ticket Served stage i t _ j s :=
          ⟨hwaits, hunserved, ⟨u, hu, hfirst⟩, rfl⟩
        exact .inr ⟨hsame.same hwaits' haim hleft (congrArg ticket hother)
          (congrArg stage hother), fun h => absurd h hkj⟩
    · -- the first ticket is given back
      obtain ⟨hvmem, hvk⟩ := (hq.owns hs k v).mpr hv
      obtain ⟨htmem, hti⟩ := (hq.owns hs i t).mpr hwaits
      have hne : v.owner ≠ t.owner := by
        rw [hvk, hti]
        rintro rfl
        exact hunserved hserved
      have hlt := (hq.inOrder hs).lt (hq.valid hs) hvmem hnumber htmem hne
      obtain ⟨j', hj'⟩ := hq.helps hs' hwaits' haim
      refine .inl ⟨_, j', ?_, hj'⟩
      rw [Prod.Lex.toLex_lt_toLex]
      exact .inl (by dsimp only; omega)

/-- Everybody who has a ticket is served. -/
theorem Queueing.served [WellFoundedLT β]
    (hq : Queueing step holds good tickets ticket Served stage)
    (hidle : ∀ p t, ticket p = some t → ¬ idle p) {r : Run step ok s₀} (hf : Fair idle holds r)
    (hgood : ∀ n, good (r.state n)) {n : Nat} (hwaits : ticket ((r.state n).pc i) = some t) :
    ∃ m, n ≤ m ∧ ticket ((r.state m).pc i) = some t ∧ Served ((r.state m).pc i) := by
  by_cases hserved : Served ((r.state n).pc i)
  · exact ⟨n, le_refl n, hwaits, hserved⟩
  · obtain ⟨j, hj⟩ := hq.helps (hgood n) hwaits hserved
    exact (hq.ranking hidle i t).reached hf hgood hj

end ConcurrencyKit.Turns
