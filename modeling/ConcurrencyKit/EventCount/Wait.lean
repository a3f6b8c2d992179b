import ConcurrencyKit.EventCount.Model

/-!
# What a wait for an event count has seen

A wait that returns zero is to have seen the value change. Four of its five exits compare values,
or exclude both words with the old value. The second spin compares the whole word with the
flagged one: it also ends when an earlier producer clears the flag. As long as that does not
happen during the spin, the word is the flagged one or the value has been another.
-/

namespace ConcurrencyKit.EventCount

variable {f : Format} {ι : Type}

/-- Two words have a value: without the flag and with it. -/
theorem Call.value_ne {c : Call f} {w : BitVec f.bits} (hu : w ≠ c.unflagged)
    (hf : w ≠ c.flagged) : f.value w ≠ c.old := by
  intro heq
  by_cases h : w &&& f.flag = 0
  · apply hu
    rw [Call.unflagged, ← heq, f.word_value w h]
  · apply hf
    rw [Call.flagged, Format.flaggedWord, ← heq, f.word_value_flag w h]

/-- The value of the event count has differed from the old value at some step of the wait. -/
def Differed (i : ι) (c : Call f) (m : Mem f ι) : Prop :=
  ∃ w ∈ m.history.drop (m.since i), f.value w ≠ c.old

instance (i : ι) (c : Call f) (m : Mem f ι) : Decidable (Differed i c m) :=
  decidable_of_iff ((m.history.drop (m.since i)).any fun w => f.value w != c.old) <| by
    simp [Differed]

/-- While the thread is in its second spin, no write turns its flagged word into the unflagged
one. -/
def Undisturbed (_ : ι) (m : Mem f ι) : Pc f → Prop
  | .spinFlagged c _ => ¬ [c.flagged, c.unflagged] <:+ m.history
  | _ => True

instance (i : ι) (m : Mem f ι) : (pc : Pc f) → Decidable (Undisturbed i m pc)
  | .spinFlagged c _ => inferInstanceAs (Decidable (¬ [c.flagged, c.unflagged] <:+ m.history))
  | .idle | .fetch _ | .store .. | .wakeAnd _ | .wakeCall _ | .returned _ | .waitValue _
  | .deadline _ | .spin .. | .cas _ | .backoff _ | .reread _ | .sleepCall _ | .sleeping _
  | .recheck _ | .again _ | .waited .. => isTrue trivial

/-- The thread is neither in its second spin nor about to return zero. -/
def Pc.Plain : Pc f → Prop
  | spinFlagged _ _ => False
  | waited _ result => result ≠ 0
  | _ => True

/-- The history ends with the current word. -/
def HistInv (m : Mem f ι) : Prop := m.history.getLast? = some m.counter

/-- What is true of a thread. -/
structure WaitAt (i : ι) (m : Mem f ι) (pc : Pc f) : Prop where
  since_lt : m.since i < m.history.length
  spinning : ∀ c n, pc = .spinFlagged c n → m.counter = c.flagged ∨ Differed i c m
  waited : ∀ c, pc = .waited c 0 → Differed i c m

section Steps

variable {mode : Option ι} {i : ι} {m m' : Mem f ι} {pc pc' : Pc f}

/-- The current word has been there since the wait began. -/
theorem differed_of_value (hinv : HistInv m) (hlt : m.since i < m.history.length) {c : Call f}
    (h : f.value m.counter ≠ c.old) : Differed i c m := by
  refine ⟨m.counter, ?_, h⟩
  apply List.mem_of_getLast?
  rw [List.getLast?_drop, if_neg (by omega)]
  exact hinv

/-- A write to the counter, or none. -/
structure Grown (i : ι) (m m' : Mem f ι) : Prop where
  history : m'.history = m.history ∧ m'.counter = m.counter ∨
    m'.history = m.history ++ [m'.counter]
  since : ∀ j, j ≠ i → m'.since j = m.since j

theorem Grown.refl (i : ι) (m : Mem f ι) : Grown i m m :=
  ⟨.inl ⟨rfl, rfl⟩, fun _ _ => rfl⟩

theorem Grown.inv (h : Grown i m m') (hinv : HistInv m) : HistInv m' := by
  rcases h.history with ⟨hhist, hcounter⟩ | hhist
  · rw [HistInv, hhist, hcounter]
    exact hinv
  · rw [HistInv, hhist, List.getLast?_concat]

theorem Grown.since_lt (h : Grown i m m') {j : ι} (hj : m'.since j = m.since j)
    (hlt : m.since j < m.history.length) : m'.since j < m'.history.length := by
  rw [hj]
  rcases h.history with ⟨hhist, -⟩ | hhist
  · rw [hhist]
    exact hlt
  · rw [hhist, List.length_append]
    omega

/-- What has been seen stays seen. -/
theorem Grown.differed (h : Grown i m m') {j : ι} (hj : m'.since j = m.since j)
    (hlt : m.since j < m.history.length) {c : Call f} (hd : Differed j c m) : Differed j c m' := by
  obtain ⟨w, hw, hne⟩ := hd
  refine ⟨w, ?_, hne⟩
  rw [hj]
  rcases h.history with ⟨hhist, -⟩ | hhist
  · rw [hhist]
    exact hw
  · rw [hhist, List.drop_append_of_le_length hlt.le]
    exact List.mem_append_left _ hw

/-- A step of another thread. -/
theorem Grown.other (h : Grown i m m') (hinv : HistInv m) {j : ι} (hj : j ≠ i) {q : Pc f}
    (hok : Undisturbed j m' q) (hq : WaitAt j m q) : WaitAt j m' q := by
  have hsince := h.since j hj
  refine ⟨h.since_lt hsince hq.since_lt, ?_, ?_⟩
  · intro c n heq
    rcases hq.spinning c n heq with hflagged | hd
    · rcases h.history with ⟨-, hcounter⟩ | hhist
      · exact .inl (hcounter.trans hflagged)
      · by_cases hsame : m'.counter = c.flagged
        · exact .inl hsame
        · -- another word: its value is new, since the flag has not just been cleared
          right
          apply differed_of_value (h.inv hinv) (h.since_lt hsince hq.since_lt)
          refine Call.value_ne ?_ hsame
          intro hclear
          subst heq
          apply hok
          obtain ⟨front, hfront⟩ := List.getLast?_eq_some_iff.mp hinv
          exact ⟨front, by rw [hhist, hfront, hflagged, hclear, List.append_assoc]; rfl⟩
    · exact .inr (h.differed hsince hq.since_lt hd)
  · intro c heq
    exact h.differed hsince hq.since_lt (hq.waited c heq)

variable [DecidableEq ι]

theorem act_grown (mode : Option ι) (i : ι) (m : Mem f ι) (pc : Pc f) :
    Grown i m (act mode i m pc).1 := by
  have wrote : ∀ {m' : Mem f ι}, m'.history = m.history ++ [m'.counter] → m'.since = m.since →
      Grown i m m' := fun hhist hsince => ⟨.inr hhist, fun _ _ => by rw [hsince]⟩
  cases pc with
  | fetch op =>
    cases mode with
    | none => exact wrote rfl rfl
    | some p =>
      unfold act
      dsimp only
      split
      case isTrue => exact ⟨.inl ⟨rfl, rfl⟩, fun _ _ => rfl⟩
      case isFalse => exact .refl i m
  | store op old => exact wrote rfl rfl
  | wakeAnd ret => exact wrote rfl rfl
  | wakeCall ret => exact ⟨.inl ⟨rfl, rfl⟩, fun _ _ => rfl⟩
  | cas c =>
    unfold act
    dsimp only
    split
    case isTrue => exact wrote rfl rfl
    case isFalse => exact .refl i m
  | sleepCall c =>
    unfold act
    dsimp only
    split
    case isTrue => exact ⟨.inl ⟨rfl, rfl⟩, fun _ _ => rfl⟩
    case isFalse => exact .refl i m
  | _ => exact .refl i m

theorem act_since (mode : Option ι) (i : ι) (m : Mem f ι) (pc : Pc f) :
    (act mode i m pc).1.since = m.since := by
  cases pc <;> cases mode <;> simp only [act] <;> (try split) <;> rfl

theorem Step.grown (h : Step mode i m pc m' pc') : Grown i m m' := by
  cases h with
  | produce => exact .refl i m
  | wait c resting =>
    exact ⟨.inl ⟨rfl, rfl⟩, fun j hj => Function.update_of_ne hj _ _⟩
  | act => exact act_grown mode i m pc
  | timeout => exact .refl i m
  | wakeUp => exact ⟨.inl ⟨rfl, rfl⟩, fun _ _ => rfl⟩

omit [DecidableEq ι] in
theorem WaitAt.plain (hlt : m.since i < m.history.length) (hplain : pc.Plain) :
    WaitAt i m pc := by
  refine ⟨hlt, ?_, ?_⟩
  · intro c n heq
    subst heq
    exact hplain.elim
  · intro c heq
    subst heq
    exact absurd rfl hplain

omit [DecidableEq ι] in
theorem WaitAt.return (hlt : m.since i < m.history.length) {c : Call f} (hd : Differed i c m) :
    WaitAt i m (.waited c 0) := by
  refine ⟨hlt, ?_, ?_⟩
  · intro c' n heq
    cases heq
  · intro c' heq
    cases heq
    exact hd

omit [DecidableEq ι] in
theorem WaitAt.spin (hlt : m.since i < m.history.length) {c : Call f} {n : Nat}
    (hflagged : m.counter = c.flagged) : WaitAt i m (.spinFlagged c n) := by
  refine ⟨hlt, ?_, ?_⟩
  · intro c' n' heq
    cases heq
    exact .inl hflagged
  · intro c' heq
    cases heq

theorem act_waitAt (hinv : HistInv m) (hat : WaitAt i m pc) :
    WaitAt i (act mode i m pc).1 (act mode i m pc).2 := by
  have hgrown := act_grown mode i m pc
  have hlt : (act mode i m pc).1.since i < (act mode i m pc).1.history.length :=
    hgrown.since_lt (by rw [act_since]) hat.since_lt
  cases pc with
  | waitValue c =>
    unfold act at hlt ⊢
    dsimp only at hlt ⊢
    split
    case isTrue hne => exact .return hlt (differed_of_value hinv hlt hne)
    case isFalse => exact .plain hlt trivial
  | spin c n =>
    unfold act at hlt ⊢
    simp only [upgrade] at hlt ⊢
    split
    case isTrue => exact .plain hlt trivial
    case isFalse =>
      split
      case isTrue hflagged => exact .spin hlt hflagged
      case isFalse hflagged =>
        split
        case isTrue hne =>
          exact .return hlt (differed_of_value hinv hlt (Call.value_ne hne hflagged))
        case isFalse => exact .plain hlt trivial
  | cas c =>
    unfold act at hlt ⊢
    dsimp only at hlt ⊢
    split at hlt
    case isTrue h =>
      rw [if_pos h]
      exact .spin hlt rfl
    case isFalse h =>
      rw [if_neg h]
      dsimp only
      split
      case isTrue hne => exact .return hlt (differed_of_value hinv hlt (Call.value_ne h hne))
      case isFalse hflagged => exact .spin hlt (not_not.mp hflagged)
  | spinFlagged c n =>
    unfold act at hlt ⊢
    dsimp only at hlt ⊢
    split
    case isTrue h => exact .spin hlt h.1
    case isFalse =>
      split
      case isTrue hne =>
        exact .return hlt ((hat.spinning c n rfl).resolve_left hne)
      case isFalse => exact .plain hlt trivial
  | again c =>
    unfold act at hlt ⊢
    dsimp only at hlt ⊢
    split
    case isTrue hne => exact .return hlt (differed_of_value hinv hlt hne)
    case isFalse => exact .plain hlt trivial
  | waited c r => exact hat
  | fetch op =>
    cases mode with
    | none =>
      unfold act at hlt ⊢
      simp only [afterUpdate] at hlt ⊢
      split <;> exact .plain hlt trivial
    | some p =>
      unfold act at hlt ⊢
      dsimp only at hlt ⊢
      split at hlt
      case isTrue h =>
        rw [if_pos h]
        exact .plain hlt trivial
      case isFalse h =>
        rw [if_neg h]
        exact .plain hlt trivial
  | store op old =>
    unfold act at hlt ⊢
    simp only [afterUpdate] at hlt ⊢
    split <;> exact .plain hlt trivial
  | sleepCall c =>
    unfold act at hlt ⊢
    dsimp only at hlt ⊢
    split at hlt
    case isTrue h =>
      rw [if_pos h]
      exact .plain hlt trivial
    case isFalse h =>
      rw [if_neg h]
      exact .plain hlt trivial
  | backoff c | reread c | recheck c =>
    unfold act at hlt ⊢
    dsimp only at hlt ⊢
    split <;> exact .plain hlt trivial
  | _ => exact .plain hlt trivial

theorem Step.waitAt (h : Step mode i m pc m' pc') (hinv : HistInv m) (hat : WaitAt i m pc) :
    WaitAt i m' pc' := by
  cases h with
  | produce => exact .plain hat.since_lt trivial
  | wait c resting =>
    refine .plain ?_ trivial
    have := hat.since_lt
    simp only [Mem.begin, Function.update_self]
    omega
  | act => exact act_waitAt hinv hat
  | timeout => exact .plain hat.since_lt (by simp [Pc.Plain])
  | wakeUp => exact .plain hat.since_lt trivial

theorem wait_invariant (mode : Option ι) :
    Threads.GuardedInvariant (Step mode) Undisturbed (HistInv (f := f) (ι := ι)) WaitAt where
  own h _ _ hinv hat := ⟨h.grown.inv hinv, h.waitAt hinv hat⟩
  other h _ hinv _ _ _ hj hok hq := h.grown.other hinv hj hok hq

end Steps

variable [DecidableEq ι]

/-- As long as nobody's second spin is disturbed, a wait returns zero only if the value has
differed from the old one. -/
theorem waited_differed {mode : Option ι} {v : BitVec f.bits}
    {s : Threads.System (Mem f ι) (Pc f) ι}
    (hr : Threads.System.Reachable (Step mode) Undisturbed (start f ι v) s) (i : ι) (c : Call f)
    (h : s.pc i = .waited c 0) : Differed i c s.mem := by
  have hstart : ∀ j, Undisturbed j (start f ι v).mem ((start f ι v).pc j) := fun _ => trivial
  have hat : ∀ j, WaitAt j (start f ι v).mem ((start f ι v).pc j) := fun j =>
    .plain Nat.zero_lt_one trivial
  exact ((wait_invariant mode).reachable hr hstart rfl hat).2 i |>.2.waited c h

/-- A producer adds one while a wait for zero is in its second spin. -/
theorem waited_differed_add :
    ∃ s : Threads.System (Mem ec64 Bool) (Pc ec64) Bool, s.pc false = .waited ⟨0#64, 1⟩ 0 ∧
      Differed false ⟨0#64, 1⟩ s.mem := by
  have h₀ : Threads.System.Reachable (Step none) Undisturbed (start ec64 Bool 0#64)
      (start ec64 Bool 0#64) := .refl
  -- the waiter gets to its second spin
  have h₁ := h₀.extend false (.wait ⟨0#64, 1⟩ trivial) (by decide +kernel)
  have h₂ := acts_reachable h₁ false 5 (by decide +kernel)
  have h₃ := h₂.extend true (.produce (.add 1#64) (fun _ h => by cases h) (by decide +kernel))
    (by decide +kernel)
  have h₄ := acts_reachable h₃ true 1 (by decide +kernel)
  have h₅ := acts_reachable h₄ false 1 (by decide +kernel)
  exact ⟨_, by decide +kernel, waited_differed h₅ false ⟨0#64, 1⟩ (by decide +kernel)⟩

/-- An earlier producer clears the flag while a wait for the current value is in its second
spin: the wait returns zero, though the value has not changed. -/
theorem waited_unchanged :
    ∃ s : Threads.System (Mem ec32 Bool) (Pc ec32) Bool,
      Threads.System.Reachable (Step none) (fun _ _ _ => True) (start ec32 Bool 0#32) s ∧
        s.pc false = .waited ⟨1#32, 1⟩ 0 ∧ ¬ Differed false ⟨1#32, 1⟩ s.mem := by
  have h₀ : Threads.System.Reachable (Step none) (fun _ _ _ => True) (start ec32 Bool 0#32)
      (start ec32 Bool 0#32) := .refl
  -- a wait for zero sets the flag and runs into its deadline
  have h₁ := h₀.extend false (.wait ⟨0#32, 1⟩ trivial) fun _ => trivial
  have h₂ := acts_reachable h₁ false 7 fun _ _ _ => trivial
  have h₃ := h₂.extend false (.timeout (c := ⟨0#32, 1⟩) (by decide +kernel)) fun _ => trivial
  -- the producer adds one to the flagged word
  have h₄ := h₃.extend true (.produce .inc (fun _ h => by cases h)
    (by decide +kernel)) fun _ => trivial
  have h₅ := acts_reachable h₄ true 1 fun _ _ _ => trivial
  -- a wait for one gets to its second spin
  have h₆ := h₅.extend false (.wait ⟨1#32, 1⟩ (by decide +kernel)) fun _ => trivial
  have h₇ := acts_reachable h₆ false 3 fun _ _ _ => trivial
  -- the producer clears the flag
  have h₈ := acts_reachable h₇ true 1 fun _ _ _ => trivial
  have h₉ := acts_reachable h₈ false 1 fun _ _ _ => trivial
  exact ⟨_, h₉, by decide +kernel, by decide +kernel⟩

end ConcurrencyKit.EventCount
