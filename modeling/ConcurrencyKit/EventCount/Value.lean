import ConcurrencyKit.EventCount.Model

/-!
# The value of an event count

The value is at any time what it was initialized to, plus all that has been added, modulo the
number of values. Flags that come and go between the load and the store of a single producer
change nothing of that: its store may undo them, but they are no part of the value. An update
that has found the flag is followed by a wake-up call of the same producer.

The assertion about one thread says which of the words that it holds are still good: the word
loaded for a single producer's store has the current value, since nobody else updates it.
-/

namespace ConcurrencyKit.EventCount

variable {f : Format} {ι : Type}

namespace Event

/-- The thread whose operation it is. -/
def thread : Event f ι → ι
  | update i _ _ | read i _ | wake i => i

/-- What has been added to the value. -/
def amount : Event f ι → Nat
  | update _ d _ => d.toNat
  | _ => 0

/-- The word that the operation found. -/
def found : Event f ι → Option (BitVec f.bits)
  | update _ _ old | read _ old => some old
  | wake _ => none

end Event

/-- The sum of what has been added. -/
def total (log : List (Event f ι)) : Nat := (log.map Event.amount).sum

/-- What thread `i` has done. -/
def own [DecidableEq ι] (i : ι) (log : List (Event f ι)) : List (Event f ι) :=
  log.filter fun e => e.thread = i

/-- Every operation has found the value that the ones before it have made. -/
def Sound (v : BitVec f.bits) (log : List (Event f ι)) : Prop :=
  ∀ xs e ys, log = xs ++ e :: ys → ∀ old, e.found = some old →
    (f.value old).toNat = (v.toNat + total xs) % f.modulus

/-- The value to return is the one that the last operation of thread `i` has found. -/
def Answers (i : ι) (log : List (Event f ι)) (value : BitVec f.bits) : Prop :=
  ∃ xs e ys old, log = xs ++ e :: ys ∧ e.thread = i ∧ e.found = some old ∧ f.value old = value ∧
    ∀ e' ∈ ys, e'.thread = i → e'.found = none

/-- Among the events of a thread, an update that has found the flag is followed by a wake-up
call, unless that is still to come. -/
def Followed (i : ι) (es : List (Event f ι)) (waking : Prop) : Prop :=
  ∀ xs d old ys, es = xs ++ .update i d old :: ys → f.Flagged old →
    (∃ zs, ys = .wake i :: zs) ∨ ys = [] ∧ waking

/-! ## Lists of events -/

/-- Where an element stands in a list that has just grown. -/
theorem split_concat {α : Type} {xs ys l : List α} {a e : α} (h : l ++ [e] = xs ++ a :: ys) :
    (ys = [] ∧ a = e ∧ l = xs) ∨ ∃ zs, ys = zs ++ [e] ∧ l = xs ++ a :: zs := by
  rcases List.eq_nil_or_concat ys with rfl | ⟨zs, b, rfl⟩
  · left
    obtain ⟨rfl, hab⟩ := List.append_inj' h rfl
    exact ⟨rfl, (List.singleton_inj.mp hab).symm, rfl⟩
  · right
    rw [List.concat_eq_append] at h ⊢
    rw [← List.cons_append, ← List.append_assoc] at h
    obtain ⟨rfl, hab⟩ := List.append_inj' h rfl
    exact ⟨zs, by rw [List.singleton_inj.mp hab], rfl⟩

theorem total_concat (log : List (Event f ι)) (e : Event f ι) :
    total (log ++ [e]) = total log + e.amount := by
  simp [total]

/-- One more operation, which has found the current value. -/
theorem Sound.concat {v : BitVec f.bits} {log : List (Event f ι)} (h : Sound v log)
    {e : Event f ι} (he : ∀ old, e.found = some old →
      (f.value old).toNat = (v.toNat + total log) % f.modulus) : Sound v (log ++ [e]) := by
  intro xs a ys hsplit old hold
  rcases split_concat hsplit with ⟨-, rfl, rfl⟩ | ⟨zs, -, hlog⟩
  · exact he old hold
  · exact h xs a zs hlog old hold

/-- The operation that has just been done answers. -/
theorem answers_concat {i : ι} (log : List (Event f ι)) {e : Event f ι} {old : BitVec f.bits}
    (he : e.thread = i) (hold : e.found = some old) : Answers i (log ++ [e]) (f.value old) :=
  ⟨log, e, [], old, rfl, he, hold, rfl, fun e' he' => by cases he'⟩

/-- What others do, and the thread's own wake-up call, changes no answer. -/
theorem Answers.concat {i : ι} {log : List (Event f ι)} {value : BitVec f.bits}
    (h : Answers i log value) {e : Event f ι} (he : e.thread = i → e.found = none) :
    Answers i (log ++ [e]) value := by
  obtain ⟨xs, a, ys, old, rfl, ha, hold, hvalue, hlater⟩ := h
  refine ⟨xs, a, ys ++ [e], old, by simp, ha, hold, hvalue, ?_⟩
  intro e' he'
  rcases List.mem_append.mp he' with hmem | hmem
  · exact hlater e' hmem
  · rw [List.mem_singleton.mp hmem]
    exact he

theorem Followed.mono {i : ι} {es : List (Event f ι)} {p q : Prop} (h : Followed i es p)
    (hpq : p → q) : Followed i es q := by
  intro xs d old ys hsplit hflag
  exact (h xs d old ys hsplit hflag).imp_right fun h => ⟨h.1, hpq h.2⟩

/-- The wake-up call is made. -/
theorem Followed.wake {i : ι} {es : List (Event f ι)} {p q : Prop} (h : Followed i es p) :
    Followed i (es ++ [.wake i]) q := by
  intro xs d old ys hsplit hflag
  left
  rcases split_concat hsplit with ⟨-, heq, -⟩ | ⟨zs, rfl, hes⟩
  · cases heq
  · rcases h xs d old zs hes hflag with ⟨zs', rfl⟩ | ⟨rfl, -⟩
    · exact ⟨zs' ++ [.wake i], rfl⟩
    · exact ⟨[], rfl⟩

/-- An update, after which the thread goes on to its wake-up call if it has found the flag. -/
theorem Followed.concat {i : ι} {es : List (Event f ι)} {p : Prop} (h : Followed i es False)
    {e : Event f ι} (he : ∀ d old, e = .update i d old → f.Flagged old → p) :
    Followed i (es ++ [e]) p := by
  intro xs d old ys hsplit hflag
  rcases split_concat hsplit with ⟨rfl, heq, -⟩ | ⟨zs, rfl, hes⟩
  · exact .inr ⟨rfl, he d old heq.symm hflag⟩
  · rcases h xs d old zs hes hflag with ⟨zs', rfl⟩ | ⟨-, hno⟩
    · exact .inl ⟨zs' ++ [e], rfl⟩
    · exact hno.elim

section Own

variable [DecidableEq ι]

theorem own_concat {i : ι} (e : Event f ι) (h : e.thread = i) (log : List (Event f ι)) :
    own i (log ++ [e]) = own i log ++ [e] := by
  simp [own, h]

theorem own_concat_of_ne {i : ι} {e : Event f ι} (h : e.thread ≠ i) (log : List (Event f ι)) :
    own i (log ++ [e]) = own i log := by
  simp [own, h]

end Own

/-! ## Assertions -/

/-- The value of the counter, and the values that the operations have found. -/
structure Inv (v : BitVec f.bits) (m : Mem f ι) : Prop where
  value : (f.value m.counter).toNat = (v.toNat + total m.log) % f.modulus
  sound : Sound v m.log

/-- The value that a producer is about to return, if any. -/
def Pc.answer : Pc f → Option (BitVec f.bits)
  | .wakeAnd ret | .wakeCall ret | .returned ret => ret
  | _ => none

/-- What is true of a thread. -/
structure At [DecidableEq ι] (mode : Option ι) (i : ι) (m : Mem f ι) (pc : Pc f) : Prop where
  followed : Followed i (own i m.log) pc.Waking
  answers : ∀ value ∈ pc.answer, Answers i m.log value
  single : ∀ p ∈ mode, pc.Producing → p = i
  stored : ∀ op old, pc = .store op old → mode = some i ∧ f.value old = f.value m.counter

section Steps

variable [DecidableEq ι] {mode : Option ι} {i : ι} {m m' : Mem f ι} {pc pc' : Pc f}
  {v : BitVec f.bits}

/-- What a step does to the counter and the log. -/
structure Effect (i : ι) (m : Mem f ι) (pc : Pc f) (m' : Mem f ι) : Prop where
  log : m'.log = m.log ∨ ∃ e : Event f ι, e.thread = i ∧ m'.log = m.log ++ [e]
  value : pc.Producing ∨ f.value m'.counter = f.value m.counter

omit [DecidableEq ι] in
theorem Effect.refl (i : ι) (m : Mem f ι) (pc : Pc f) : Effect i m pc m :=
  ⟨.inl rfl, .inr rfl⟩

theorem act_effect (i : ι) (m : Mem f ι) (pc : Pc f) : Effect i m pc (act mode i m pc).1 := by
  cases pc with
  | fetch op =>
    cases mode with
    | none => exact ⟨.inr ⟨.update i op.delta m.counter, rfl, rfl⟩, .inl trivial⟩
    | some p =>
      unfold act
      dsimp only
      split
      case isTrue => exact ⟨.inr ⟨.read i m.counter, rfl, rfl⟩, .inl trivial⟩
      case isFalse => exact .refl ..
  | store op old => exact ⟨.inr ⟨.update i op.delta old, rfl, rfl⟩, .inl trivial⟩
  | wakeAnd ret => exact ⟨.inl rfl, .inl trivial⟩
  | wakeCall ret => exact ⟨.inr ⟨.wake i, rfl, rfl⟩, .inl trivial⟩
  | cas c =>
    unfold act
    dsimp only
    split
    case isTrue h =>
      refine ⟨.inl rfl, .inr ?_⟩
      rw [h]
      exact f.value_flag _
    case isFalse => exact .refl ..
  | sleepCall c =>
    unfold act
    dsimp only
    split
    case isTrue => exact ⟨.inl rfl, .inr rfl⟩
    case isFalse => exact .refl ..
  | _ => exact .refl ..

theorem Step.effect (h : Step mode i m pc m' pc') : Effect i m pc m' := by
  cases h with
  | produce => exact .refl ..
  | wait => exact ⟨.inl rfl, .inr rfl⟩
  | act => exact act_effect i m pc
  | timeout => exact .refl ..
  | wakeUp => exact ⟨.inl rfl, .inr rfl⟩

/-- A step of another thread. -/
theorem At.other (h : Effect i m pc m') (hi : At mode i m pc) {j : ι} (hj : j ≠ i) {q : Pc f}
    (hq : At mode j m q) : At mode j m' q := by
  refine ⟨?_, ?_, hq.single, ?_⟩
  · rcases h.log with hlog | ⟨e, he, hlog⟩
    · rw [hlog]
      exact hq.followed
    · rw [hlog, own_concat_of_ne (by rw [he]; exact hj.symm)]
      exact hq.followed
  · intro value hvalue
    rcases h.log with hlog | ⟨e, he, hlog⟩
    · rw [hlog]
      exact hq.answers value hvalue
    · rw [hlog]
      exact (hq.answers value hvalue).concat fun heq => absurd (heq.symm.trans he) hj
  · intro op old heq
    obtain ⟨hmode, hstored⟩ := hq.stored op old heq
    refine ⟨hmode, ?_⟩
    rcases h.value with hproducing | hvalue
    · exact absurd (hi.single j hmode hproducing) hj
    · rw [hstored, hvalue]

theorem Op.wakes_of_flagged (op : Op f) {old : BitVec f.bits} (h : f.Flagged old) :
    op.wakes old = true := by
  cases op with
  | inc => exact f.incWakes_of_flagged old h
  | add d => exact f.addWakes_of_flagged old h

/-- An update that has found the current value. -/
theorem update_spec (hinv : Inv v m) (hat : At mode i m pc) (hpc : ¬ pc.Waking)
    (hsingle : ∀ p ∈ mode, p = i) (op : Op f) {old : BitVec f.bits}
    (hold : f.value old = f.value m.counter) :
    Inv v (m.update i op old) ∧ At mode i (m.update i op old) (afterUpdate op old) := by
  have hvalue : (f.value old).toNat = (v.toNat + total m.log) % f.modulus := by
    rw [hold, hinv.value]
  refine ⟨⟨?_, ?_⟩, ?_, ?_, ?_, ?_⟩
  · calc (f.value (old + f.amount op.delta)).toNat
        = ((v.toNat + total m.log) % f.modulus + op.delta.toNat) % f.modulus := by
          rw [f.value_add, hvalue]
      _ = (v.toNat + total (m.log ++ [.update i op.delta old])) % f.modulus := by
          rw [Nat.mod_add_mod, total_concat, Nat.add_assoc]
          rfl
  · refine hinv.sound.concat fun old' hfound => ?_
    cases hfound
    exact hvalue
  · change Followed i (own i (m.log ++ [.update i op.delta old])) _
    rw [own_concat (i := i) (.update i op.delta old) rfl]
    refine (hat.followed.mono fun h => absurd h hpc).concat ?_
    intro d old' heq hflag
    cases heq
    rw [afterUpdate, if_pos (op.wakes_of_flagged hflag)]
    trivial
  · intro value hret
    have hret : value ∈ op.ret old := by
      unfold afterUpdate at hret
      split at hret <;> exact hret
    cases op with
    | inc => cases hret
    | add d =>
      cases hret
      exact answers_concat m.log rfl rfl
  · intro p hp _
    exact hsingle p hp
  · intro op' old' heq
    unfold afterUpdate at heq
    split at heq <;> cases heq

/-- A step that makes no update and leaves the operations of producers alone. -/
theorem At.quiet (hat : At mode i m pc) (hlog : m'.log = m.log) (hpc : ¬ pc.Waking)
    (hanswer : pc'.answer = none) (hproducing : ¬ pc'.Producing) : At mode i m' pc' := by
  refine ⟨?_, ?_, ?_, ?_⟩
  · rw [hlog]
    exact hat.followed.mono fun h => absurd h hpc
  · intro value hvalue
    rw [hanswer] at hvalue
    cases hvalue
  · intro _ _ h
    exact absurd h hproducing
  · intro op old heq
    rw [heq] at hproducing
    exact absurd trivial hproducing

omit [DecidableEq ι] in
theorem Inv.of_eq (hinv : Inv v m) (hlog : m'.log = m.log)
    (hvalue : f.value m'.counter = f.value m.counter) : Inv v m' :=
  ⟨by rw [hvalue, hlog]; exact hinv.value, by rw [hlog]; exact hinv.sound⟩

theorem act_own (hinv : Inv v m) (hat : At mode i m pc) :
    Inv v (act mode i m pc).1 ∧ At mode i (act mode i m pc).1 (act mode i m pc).2 := by
  cases pc with
  | fetch op =>
    cases mode with
    | none => exact update_spec hinv hat id (fun p hp => by cases hp) op rfl
    | some p =>
      have hp : p = i := hat.single p rfl trivial
      unfold act
      dsimp only
      split
      case isTrue =>
        have hvalue := hinv.value
        refine ⟨⟨?_, ?_⟩, ?_, ?_, ?_, ?_⟩
        · rw [total_concat]
          exact hvalue
        · refine hinv.sound.concat fun old hfound => ?_
          cases hfound
          exact hvalue
        · change Followed i (own i (m.log ++ [.read i m.counter])) _
          rw [own_concat (i := i) (.read i m.counter) rfl]
          refine (hat.followed.mono fun h => h).concat ?_
          intro d old heq
          cases heq
        · intro value hret
          cases hret
          exact answers_concat m.log rfl rfl
        · intro _ _ h
          exact h.elim
        · intro op' old' heq
          cases heq
      case isFalse =>
        refine ⟨hinv, hat.followed, ?_, ?_, ?_⟩
        · intro value hret
          cases hret
        · intro q hq _
          cases hq
          exact hp
        · intro op' old' heq
          cases heq
          exact ⟨by rw [hp], rfl⟩
  | store op old =>
    obtain ⟨hmode, hold⟩ := hat.stored op old rfl
    refine update_spec hinv hat id ?_ op hold
    intro p hp
    rw [hmode] at hp
    exact (Option.some.inj hp).symm
  | wakeAnd ret =>
    refine ⟨hinv.of_eq rfl (f.value_clear _), hat.followed, hat.answers, hat.single, ?_⟩
    intro op old heq
    cases heq
  | wakeCall ret =>
    refine ⟨⟨?_, ?_⟩, ?_, ?_, ?_, ?_⟩
    · change _ = (v.toNat + total (m.log ++ [.wake i])) % f.modulus
      rw [total_concat]
      exact hinv.value
    · refine hinv.sound.concat fun old hfound => ?_
      cases hfound
    · change Followed i (own i (m.log ++ [.wake i])) _
      rw [own_concat (i := i) (.wake i) rfl]
      exact hat.followed.wake
    · intro value hret
      exact (hat.answers value hret).concat fun _ => rfl
    · intro _ _ h
      exact h.elim
    · intro op old heq
      cases heq
  | waitValue c =>
    refine ⟨hinv, ?_⟩
    unfold act
    dsimp only
    split <;> exact hat.quiet rfl id rfl id
  | deadline c => exact ⟨hinv, hat.quiet rfl id rfl id⟩
  | spin c n =>
    refine ⟨hinv, ?_⟩
    unfold act
    simp only [upgrade]
    split
    case isTrue => exact hat.quiet rfl id rfl id
    case isFalse =>
      repeat' split
      all_goals exact hat.quiet rfl id rfl id
  | cas c =>
    unfold act
    dsimp only
    split
    case isTrue h =>
      refine ⟨hinv.of_eq rfl ?_, hat.quiet rfl id rfl id⟩
      rw [h]
      exact f.value_flag _
    case isFalse =>
      refine ⟨hinv, ?_⟩
      dsimp only
      split <;> exact hat.quiet rfl id rfl id
  | spinFlagged c n =>
    refine ⟨hinv, ?_⟩
    unfold act
    dsimp only
    repeat' split
    all_goals exact hat.quiet rfl id rfl id
  | backoff c =>
    refine ⟨hinv, ?_⟩
    unfold act
    dsimp only
    split <;> exact hat.quiet rfl id rfl id
  | reread c =>
    refine ⟨hinv, ?_⟩
    unfold act
    dsimp only
    split <;> exact hat.quiet rfl id rfl id
  | sleepCall c =>
    unfold act
    dsimp only
    split
    case isTrue => exact ⟨hinv.of_eq rfl rfl, hat.quiet rfl id rfl id⟩
    case isFalse => exact ⟨hinv, hat.quiet rfl id rfl id⟩
  | recheck c =>
    refine ⟨hinv, ?_⟩
    unfold act
    dsimp only
    split <;> exact hat.quiet rfl id rfl id
  | again c =>
    refine ⟨hinv, ?_⟩
    unfold act
    dsimp only
    split <;> exact hat.quiet rfl id rfl id
  | _ => exact ⟨hinv, hat⟩

theorem Step.own (h : Step mode i m pc m' pc') (hinv : Inv v m) (hat : At mode i m pc) :
    Inv v m' ∧ At mode i m' pc' := by
  have quiet : pc.Resting ∨ pc.timed.isSome → ¬ pc.Waking := by
    cases pc <;> simp [Pc.Resting, Pc.timed, Pc.Waking]
  cases h with
  | produce op allowed resting =>
    refine ⟨hinv, hat.followed.mono fun h => absurd h (quiet (.inl resting)), ?_, ?_, ?_⟩
    · intro value hvalue
      cases hvalue
    · intro p hp _
      exact allowed p hp
    · intro op' old heq
      cases heq
  | wait c resting => exact ⟨hinv.of_eq rfl rfl, hat.quiet rfl (quiet (.inl resting)) rfl id⟩
  | act => exact act_own hinv hat
  | timeout h => exact ⟨hinv, hat.quiet rfl (quiet (.inr (by rw [h]; rfl))) rfl id⟩
  | wakeUp => exact ⟨hinv.of_eq rfl rfl, hat.quiet rfl id rfl id⟩

theorem invariant (mode : Option ι) (v : BitVec f.bits) :
    Threads.Invariant (Step mode) (fun _ _ _ => True) (Inv (ι := ι) v) (At (f := f) mode) where
  own h _ hinv hat := h.own hinv hat
  other h _ _ hat _ _ hj hq := At.other h.effect hat hj hq

end Steps

/-! ## Runs -/

variable [DecidableEq ι]

/-- The states of a run. -/
def Reachable (mode : Option ι) (v : BitVec f.bits) (s : Threads.System (Mem f ι) (Pc f) ι) :
    Prop :=
  Threads.System.Reachable (Step mode) (fun _ _ _ => True) (start f ι v) s

omit [DecidableEq ι] in
theorem init_inv (v : BitVec f.bits) : Inv v (init f ι v) := by
  refine ⟨?_, ?_⟩
  · exact f.value_init v
  · intro xs e ys h
    simp [init] at h

theorem init_at (mode : Option ι) (i : ι) (v : BitVec f.bits) :
    At mode i (init f ι v) .idle := by
  refine ⟨?_, ?_, ?_, ?_⟩
  · intro xs d old ys h
    simp [own, init] at h
  · intro value h
    cases h
  · intro p _ h
    exact h.elim
  · intro op old h
    cases h

end ConcurrencyKit.EventCount
