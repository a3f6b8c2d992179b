import ConcurrencyKit.Epoch.Sections

/-!
# What `ck_epoch_end` returns

Without a section object `ck_epoch_end` looks at the number of all open sections of the record. With
an object it looks at the bucket of the object alone, and sections that have begun in an epoch of
the other sense may still be open.

The counters are words, and any number of sections may be open here.
-/

namespace ConcurrencyKit.Epoch

open Threads (Invariant System)

variable {ι : Type}

/-- The section that the next access of a thread ends, with which `ck_epoch_end` returns. -/
def ending : Pc ι → Option Section
  | .endActive ⟨none, e⟩ => some ⟨none, e⟩
  | .delref b e => some ⟨some b, e⟩
  | _ => none

/-- The sections among `xs` that the end of the section `x` counts. -/
def Section.counted (x : Section) (xs : List Section) : Nat :=
  match x.bucket with
  | none => xs.length
  | some b => xs.countP (·.bucket = some b)

/-- What `active` says of the open sections where a thread stands. -/
def Active (r : Record) (xs : List Section) : Pc ι → Prop
  | .beginLoad _ | .beginStore _ _ | .addref => r.active = (xs.length + 1) % 2 ^ 32
  | .endActive x => x ∈ xs ∧ r.active = xs.length % 2 ^ 32
  | .delref b e => ⟨some b, e⟩ ∈ xs ∧ r.active = (xs.length - 1) % 2 ^ 32
  | _ => r.active = xs.length % 2 ^ 32

/-- The counters of a record are right. -/
structure Counted (i : ι) (m : Mem ι) (pc : Pc ι) : Prop where
  count : ∀ b, ((m.record i).bucket b).count =
    (m.sections i).countP (·.bucket = some b) % 2 ^ 32
  active : Active (m.record i) (m.sections i) pc

/-- The sections that a bucket counts, when one of them ends. -/
theorem dec_countP {xs : List Section} {b : Fin 2} {e n : Nat} (hx : ⟨some b, e⟩ ∈ xs)
    (hn : n = xs.countP (·.bucket = some b) % 2 ^ 32) :
    dec 32 n = (xs.erase ⟨some b, e⟩).countP (·.bucket = some b) % 2 ^ 32 := by
  have hpos : 0 < xs.countP (·.bucket = some b) := List.countP_pos_iff.mpr ⟨_, hx, by simp⟩
  rw [List.countP_erase, if_pos ⟨hx, by simp⟩, hn, dec]
  omega

section Steps

variable [DecidableEq ι] {records : List ι} {i j : ι} {m m' : Mem ι} {pc pc' : Pc ι}

omit [DecidableEq ι] in
/-- A step that leaves the counters and the sections of a record as they are. -/
theorem Counted.next (h : Counted i m pc) (hr : (m'.record i).bucket = (m.record i).bucket)
    (hx : m'.sections i = m.sections i) (ha : Active (m'.record i) (m.sections i) pc') :
    Counted i m' pc' where
  count b := by rw [hr, hx, h.count]
  active := by
    rw [hx]
    exact ha

omit [DecidableEq ι] in
theorem tick_record (e : Nat) : (m.tick e).record = m.record := by
  unfold Mem.tick
  split <;> rfl

omit [DecidableEq ι] in
theorem tick_sections (e : Nat) : (m.tick e).sections = m.sections := by
  unfold Mem.tick
  split <;> rfl

omit [DecidableEq ι] in
theorem Counted.tick (h : Counted i m pc) (e : Nat)
    (ha : Active (m.record i) (m.sections i) pc') : Counted i (m.tick e) pc' :=
  h.next (by rw [tick_record]) (by rw [tick_sections]) (by rw [tick_record]; exact ha)

/-- A section without an object begins, and the call returns. -/
theorem Counted.push (h : Counted i m pc) {r : Record}
    (hr : r.bucket = (m.record i).bucket)
    (ha : r.active = ((m.sections i).length + 1) % 2 ^ 32) (e : Nat) :
    Counted i ((m.set i r).push i ⟨none, e⟩) .idle where
  count b := by
    rw [Mem.push_record, Mem.set_record, Mem.push_sections, Mem.set_sections,
      List.countP_cons_of_neg (by simp), hr]
    exact h.count b
  active := by
    rw [Mem.push_record, Mem.set_record, Mem.push_sections, Mem.set_sections]
    exact ha

theorem beginActive_counted {object : Bool} (h : Counted i m (.beginActive object)) :
    Counted i (m.act records i (.beginActive object)).1
      (m.act records i (.beginActive object)).2 := by
  have ha : (m.record i).active = (m.sections i).length % 2 ^ 32 := h.active
  by_cases hz : (m.record i).active = 0
  · unfold Mem.act
    simp only [if_pos hz]
    refine h.next (by rw [Mem.set_record]) rfl ?_
    rw [Mem.set_record]
    show 1 = ((m.sections i).length + 1) % 2 ^ 32
    omega
  · have hinc : inc 32 (m.record i).active = ((m.sections i).length + 1) % 2 ^ 32 := by
      rw [inc, ha, Nat.mod_add_mod]
    unfold Mem.act
    simp only [if_neg hz]
    cases object with
    | true =>
      refine h.next (by rw [if_pos rfl, Mem.set_record]) rfl ?_
      rw [if_pos rfl, Mem.set_record]
      exact hinc
    | false =>
      exact h.push (r := { m.record i with active := inc 32 (m.record i).active }) rfl hinc _

theorem addref_counted (h : Counted i m .addref) :
    Counted i (m.act records i .addref).1 (m.act records i .addref).2 where
  count b := by
    unfold Mem.act
    simp only [Mem.push_record, Mem.set_record, Mem.push_sections, Mem.set_sections]
    by_cases hb : b = sense m.epoch
    · subst hb
      rw [List.countP_cons_of_pos (by simp), Record.addref_bucket_self, inc, h.count]
      exact Nat.mod_add_mod _ _ _
    · rw [List.countP_cons_of_neg (by simpa using fun he => hb he.symm),
        Record.addref_bucket_of_ne hb, h.count]
  active := by
    unfold Mem.act
    simp only [Mem.push_record, Mem.set_record, Mem.push_sections, Mem.set_sections]
    exact h.active

theorem endActive_counted {x : Section} (h : Counted i m (.endActive x)) :
    Counted i (m.act records i (.endActive x)).1 (m.act records i (.endActive x)).2 := by
  obtain ⟨hx, ha⟩ : x ∈ m.sections i ∧ (m.record i).active = (m.sections i).length % 2 ^ 32 :=
    h.active
  have hdec := dec_length hx ha
  cases hb : x.bucket with
  | some b =>
    unfold Mem.act
    simp only [hb]
    obtain ⟨bucket, began⟩ := x
    cases hb
    refine h.next (by rw [Mem.set_record]) rfl ?_
    rw [Mem.set_record]
    exact ⟨hx, hdec⟩
  | none =>
    unfold Mem.act
    simp only [hb]
    refine ⟨fun b => ?_, ?_⟩
    · rw [Mem.erase_record, Mem.set_record, Mem.erase_sections, Mem.set_sections,
        List.countP_erase, if_neg (by simp [hb]), Nat.sub_zero]
      exact h.count b
    · rw [Mem.erase_record, Mem.set_record, Mem.erase_sections, Mem.set_sections]
      show dec 32 (m.record i).active = ((m.sections i).erase x).length % 2 ^ 32
      rw [List.length_erase_of_mem hx, hdec]

theorem delref_bucket (b : Fin 2) (r : Record) : (r.delref b).bucket = (r.drop b).bucket := by
  unfold Record.delref
  split <;> rfl

theorem delref_counted {b : Fin 2} {e : Nat} (h : Counted i m (.delref b e)) :
    Counted i (m.act records i (.delref b e)).1 (m.act records i (.delref b e)).2 := by
  obtain ⟨hx, ha⟩ : (⟨some b, e⟩ : Section) ∈ m.sections i ∧
    (m.record i).active = ((m.sections i).length - 1) % 2 ^ 32 := h.active
  refine ⟨fun c => ?_, ?_⟩
  · unfold Mem.act
    simp only [Mem.erase_record, Mem.set_record, Mem.erase_sections, Mem.set_sections]
    rw [delref_bucket]
    by_cases hc : c = b
    · subst hc
      rw [Record.drop_bucket_self]
      exact dec_countP hx (h.count c)
    · rw [Record.drop_bucket_of_ne hc, h.count, List.countP_erase,
        if_neg (by simpa using fun _ he => hc he.symm), Nat.sub_zero]
  · unfold Mem.act
    simp only [Mem.erase_record, Mem.set_record, Mem.erase_sections, Mem.set_sections]
    show ((m.record i).delref b).active = _
    rw [Record.delref_active, List.length_erase_of_mem hx, ha]

/-- One access of a thread. -/
theorem act_counted (running : ¬ pc.Resting) (h : Counted i m pc) :
    Counted i (m.act records i pc).1 (m.act records i pc).2 := by
  cases pc with
  | beginActive object => exact beginActive_counted h
  | beginLoad object => exact h.next rfl rfl h.active
  | beginStore object e =>
    unfold Mem.act
    dsimp only
    cases object with
    | true =>
      refine h.next (by rw [if_pos rfl, Mem.set_record]) rfl ?_
      rw [if_pos rfl, Mem.set_record]
      exact h.active
    | false => exact h.push (r := { m.record i with epoch := e }) rfl h.active _
  | addref => exact addref_counted h
  | endActive x => exact endActive_counted h
  | delref b e => exact delref_counted h
  | pollLoad | synchronizeLoad => exact h.next rfl rfl h.active
  | scanActive k e rest active =>
    cases rest with
    | nil => cases k <;> cases active <;> exact h.next rfl rfl h.active
    | cons cr rest =>
      unfold Mem.act
      dsimp only
      split <;> exact h.next rfl rfl h.active
  | scanEpoch k e cr rest =>
    unfold Mem.act
    dsimp only
    split
    · exact h.next rfl rfl h.active
    · cases k <;> exact h.next rfl rfl h.active
  | pollStore e =>
    refine h.next (by simp only [Mem.act, Mem.set_record]) rfl ?_
    unfold Mem.act
    simp only [Mem.set_record]
    exact h.active
  | pollCas e => exact h.tick e h.active
  | synchronizeReload e n delta cr rest =>
    unfold Mem.act
    dsimp only
    split
    · exact h.next rfl rfl h.active
    · split <;> exact h.next rfl rfl h.active
  | synchronizeCas e n delta =>
    unfold Mem.act
    dsimp only
    split <;> exact h.tick delta h.active
  | idle | ended | polled | synchronized => exact absurd trivial running

omit [DecidableEq ι] in
theorem Counted.resting (h : Counted i m pc) (resting : pc.Resting) :
    (m.record i).active = (m.sections i).length % 2 ^ 32 := by
  have ha := h.active
  cases pc with
  | idle | ended | polled | synchronized => exact ha
  | _ => exact resting.elim

theorem step_counted (hstep : Step records i m pc m' pc') (h : Counted i m pc) :
    Counted i m' pc' := by
  cases hstep with
  | beginSection object resting => exact h.next rfl rfl (h.resting resting)
  | endSection x mem resting => exact h.next rfl rfl ⟨mem, h.resting resting⟩
  | poll resting => exact h.next rfl rfl (h.resting resting)
  | synchronize outside resting => exact h.next rfl rfl (h.resting resting)
  | act running => exact act_counted running h

/-- The counters are right in every run. -/
theorem counted_invariant :
    Invariant (Step records) (fun _ _ _ => True) (fun _ => True) (Counted (ι := ι)) where
  own hstep _ _ h := ⟨trivial, step_counted hstep h⟩
  other hstep _ _ _ _ _ hj hother := by
    have hf := step_frame hstep
    refine hother.next (by rw [hf.record _ hj]) (hf.sections _ hj) ?_
    rw [hf.record _ hj]
    exact hother.active

/-- What `ck_epoch_end` returns: whether the counter that it looks at is zero. -/
theorem ends_eq (h : Counted i m pc) {x : Section} (hx : ending pc = some x) :
    (m.act records i pc).1.sections i = (m.sections i).erase x ∧
      (m.act records i pc).2 =
        .ended (decide (x.counted ((m.sections i).erase x) % 2 ^ 32 = 0)) := by
  have ha := h.active
  cases pc with
  | endActive y =>
    obtain ⟨bucket, began⟩ := y
    cases bucket with
    | some b => cases hx
    | none =>
      obtain rfl : (⟨none, began⟩ : Section) = x := Option.some.inj hx
      obtain ⟨hmem, ha⟩ := ha
      have hdec := dec_length hmem ha
      refine ⟨Mem.erase_sections, ?_⟩
      unfold Mem.act
      simp only [Mem.set_record, Section.counted, hdec, List.length_erase_of_mem hmem]
  | delref b e =>
    obtain rfl : (⟨some b, e⟩ : Section) = x := Option.some.inj hx
    refine ⟨Mem.erase_sections, ?_⟩
    have hdec := dec_countP ha.1 (h.count b)
    unfold Mem.act
    simp only [Record.drop_bucket_self, hdec]
    rfl
  | _ => cases hx

theorem counted_nil (x : Section) : x.counted [] = 0 := by
  unfold Section.counted
  split <;> rfl

/-- In every run `ck_epoch_end` tells whether it has ended the last open section of the record
exactly if that is so, or the number of the open sections that it counts is not a multiple of
`2 ^ 32`: those of the same bucket for a section object, and all of them without one. -/
theorem end_result_iff {s : System (Mem ι) (Pc ι) ι}
    (hr : System.Reachable (Step records) (fun _ _ _ => True) start s) {x : Section}
    (hx : ending (s.pc i) = some x) :
    ∃ last, (s.mem.act records i (s.pc i)).2 = .ended last ∧
      ((last = true ↔ (s.mem.act records i (s.pc i)).1.sections i = []) ↔
        (s.mem.sections i).erase x = [] ∨
          x.counted ((s.mem.sections i).erase x) % 2 ^ 32 ≠ 0) := by
  obtain ⟨-, hall⟩ := counted_invariant.reachable hr (fun _ => trivial) trivial
    fun i => ⟨fun _ => rfl, rfl⟩
  obtain ⟨hsections, hended⟩ := ends_eq (hall i).2 hx
  refine ⟨_, hended, ?_⟩
  rw [hsections, decide_eq_true_iff]
  generalize (s.mem.sections i).erase x = rest
  by_cases hrest : rest = []
  · subst hrest
    rw [counted_nil]
    exact iff_of_true (iff_of_true rfl rfl) (.inl rfl)
  · simp only [hrest, iff_false, false_or, ne_eq]

/-- A section with an object begins in the epoch 1, the thread polls, and two sections with objects
begin in the epoch 2. One of these ends, and `ck_epoch_end` is right that it is not the last one. -/
theorem end_result_iff_several : ∃ s : System (Mem Unit) (Pc Unit) Unit,
    System.Reachable (Step [()]) (fun _ _ _ => True) start s ∧ s.pc () = .delref 0 2 ∧
      s.mem.sections () = [⟨some 0, 2⟩, ⟨some 0, 2⟩, ⟨some 1, 1⟩] ∧
      (s.mem.act [()] () (s.pc ())).2 = .ended false ∧ ∃ last,
        (s.mem.act [()] () (s.pc ())).2 = .ended last ∧
          (last = true ↔ (s.mem.act [()] () (s.pc ())).1.sections () = []) := by
  have h₀ : System.Reachable (Step [()]) (fun _ _ _ => True) start (start (ι := Unit)) := .refl
  have h₁ := h₀.extend () (.beginSection true trivial) fun _ => trivial
  have h₂ := acts_reachable h₁ () 4 fun _ _ _ => trivial
  have h₃ := h₂.extend () (.poll trivial) fun _ => trivial
  have h₄ := acts_reachable h₃ () 5 fun _ _ _ => trivial
  have h₅ := h₄.extend () (.beginSection true trivial) fun _ => trivial
  have h₆ := acts_reachable h₅ () 2 fun _ _ _ => trivial
  have h₇ := h₆.extend () (.beginSection true trivial) fun _ => trivial
  have h₈ := acts_reachable h₇ () 2 fun _ _ _ => trivial
  have h₉ := h₈.extend () (.endSection ⟨some 0, 2⟩ (by decide) trivial) fun _ => trivial
  have h₁₀ := acts_reachable h₉ () 1 fun _ _ _ => trivial
  obtain ⟨last, hlast, hiff⟩ := end_result_iff h₁₀ (i := ()) (x := ⟨some 0, 2⟩) rfl
  exact ⟨_, h₁₀, rfl, by decide, rfl, last, hlast, hiff.mpr (.inr (by decide))⟩

/-- One section is open since the epoch 1, and one that has begun in the epoch 2 ends. -/
theorem end_returns_true : ∃ s : System (Mem Unit) (Pc Unit) Unit,
    System.Reachable (Step [()]) (fun _ _ _ => True) start s ∧ s.pc () = .ended true ∧
      s.mem.sections () = [⟨some 1, 1⟩] := by
  have h₀ : System.Reachable (Step [()]) (fun _ _ _ => True) start (start (ι := Unit)) := .refl
  have h₁ := h₀.extend () (.beginSection true trivial) fun _ => trivial
  have h₂ := acts_reachable h₁ () 4 fun _ _ _ => trivial
  have h₃ := h₂.extend () (.poll trivial) fun _ => trivial
  have h₄ := acts_reachable h₃ () 5 fun _ _ _ => trivial
  have h₅ := h₄.extend () (.beginSection true trivial) fun _ => trivial
  have h₆ := acts_reachable h₅ () 2 fun _ _ _ => trivial
  have h₇ := h₆.extend () (.endSection ⟨some 0, 2⟩ (by decide) trivial) fun _ => trivial
  have h₈ := acts_reachable h₇ () 2 fun _ _ _ => trivial
  exact ⟨_, h₈, rfl, by decide⟩

end Steps

end ConcurrencyKit.Epoch
