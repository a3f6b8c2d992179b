import ConcurrencyKit.Rwlock.Handshake

/-!
# Readers and writers of `ck_rwlock`

The functions of the plain lock and of the one that may be locked again are steps of the handshake
(`Plays`). So in any run at most one thread has locked the lock for writing, `writer` is only
touched by the thread that it is about, and all fields are zero when everybody is outside. Readers
and the writer exclude each other as long as fewer than `2 ^ 32` readers are counted: the word that
counts them has no room for more.
-/

namespace ConcurrencyKit.Rwlock

variable {ι : Type}

/-! ## Roles -/

/-- What a thread has done of the handshake that is at no access that matters to it. While it owns
the lock, `wc` is `word` of the depth. -/
def Held.role (word : Nat → Nat) (h : Held) : Role where
  reads := h.reads
  owns := 0 < h.depth
  writes := 0 < h.depth
  depth := h.depth
  wc := word h.depth

/-- What a thread has done of the handshake. A writer has the roles `f`. -/
def Pc.role {W : Type} (word : Nat → Nat) (f : W → Held → Role) : Pc W → Role
  | outside h | tryLoad h | tryInc h | readLoad h | readInc h | readUnlock h => h.role word
  | write w h => f w h
  | tryCheck h | tryDec h | readCheck h | readDec h => { h.role word with knocking := true }

/-- What is known about what a thread holds from where it stands. -/
def Pc.Fits {W : Type} (bound : Nat → Prop) (fits : W → Held → Prop) : Pc W → Prop
  | outside h | tryLoad h | tryInc h | readLoad h | readInc h | tryCheck h | tryDec h | readCheck h
  | readDec h => bound h.depth
  | readUnlock h => 0 < h.reads ∧ bound h.depth
  | write w h => fits w h ∧ bound h.depth

variable [DecidableEq ι] {k : Kind ι}

/-- The functions of writers are steps of the handshake. -/
structure Plays (k : Kind ι) where
  value : ι → Nat
  word : Nat → Nat
  role : k.W → Held → Role
  bound : Nat → Prop
  fits : k.W → Held → Prop
  value_ne_zero : ∀ i, value i ≠ 0
  reads : ∀ w h, (role w h).reads = h.reads
  depth : ∀ w h, (role w h).depth = h.depth
  word_zero : word 0 = 0
  bound_zero : bound 0
  call : ∀ {w h}, k.Call w h → role w h = h.role word ∧ fits w h
  act : ∀ {few i m w h}, Inv value m → At few i m (role w h) → fits w h → bound h.depth →
    Role.Step value i m (role w h) (k.act i m w h).1 ((k.act i m w h).2.role word role) ∧
      (k.act i m w h).2.Fits bound fits

namespace Plays

variable {few : Bool} {i j : ι} {m m' : Mem ι} {pc pc' : Pc k.W}
  {s : Threads.System (Mem ι) (Pc k.W) ι}

/-- What is true of a thread. -/
def At (p : Plays k) (few : Bool) (i : ι) (m : Mem ι) (pc : Pc k.W) : Prop :=
  Rwlock.At few i m (pc.role p.word p.role) ∧ pc.Fits p.bound p.fits

theorem step (p : Plays k) (h : Step k i m pc m' pc') (hinv : Inv p.value m)
    (hat : p.At few i m pc) :
    Role.Step p.value i m (pc.role p.word p.role) m' (pc'.role p.word p.role) ∧
      pc'.Fits p.bound p.fits := by
  obtain ⟨hrole, hfits⟩ := hat
  cases h with
  | write hcall =>
    obtain ⟨hsame, hw⟩ := p.call hcall
    simp only [Pc.role, hsame]
    exact ⟨.stay, hw, hfits⟩
  | readTry | readLock => exact ⟨.stay, hfits⟩
  | readUnlock hreads => exact ⟨.stay, hreads, hfits⟩
  | act =>
    cases pc with
    | outside h => exact ⟨.stay, hfits⟩
    | write w h => exact p.act hinv hrole hfits.1 hfits.2
    | tryLoad h | readLoad h =>
      simp only [Rwlock.act]
      split <;> exact ⟨.stay, hfits⟩
    | tryInc h | readInc h => exact ⟨.inc rfl, hfits⟩
    | tryCheck h | readCheck h =>
      simp only [Rwlock.act]
      split
      case isTrue hfree => exact ⟨.enter rfl hfree, hfits⟩
      case isFalse => exact ⟨.stay, hfits⟩
    | tryDec h | readDec h => exact ⟨.dec rfl, hfits⟩
    | readUnlock h => exact ⟨.leave hfits.1, hfits.2⟩

theorem invariant (p : Plays k) :
    Threads.Invariant (Step k) (Few few) (Inv p.value) (p.At few) where
  own h hfew hinv hat := by
    obtain ⟨hstep, hfits⟩ := p.step h hinv hat
    exact ⟨hstep.inv hinv hat.1, hstep.self p.value_ne_zero hfew hinv hat.1, hfits⟩
  other h _ hinv hat _ _ hj hq :=
    ⟨(p.step h hinv hat).1.other p.value_ne_zero hinv hat.1 hj hq.1, hq.2⟩

theorem reachable (p : Plays k) (hr : Threads.System.Reachable (Step k) (Few few) (start k) s) :
    Inv p.value s.mem ∧ ∀ i, p.At few i s.mem (s.pc i) := by
  have hat : ∀ i, p.At few i (start k).mem ((start k).pc i) := fun i =>
    ⟨⟨by simp [start, Pc.role, Held.role], rfl, rfl, id, fun _ _ => rfl,
      fun h => absurd h (Nat.lt_irrefl 0), nofun, fun _ => p.word_zero⟩, p.bound_zero⟩
  obtain ⟨hinv, hall⟩ := p.invariant.reachable hr (fun _ _ => Nat.two_pow_pos 32)
    ⟨rfl, rfl, le_refl _, fun _ => rfl⟩ hat
  exact ⟨hinv, fun i => (hall i).2⟩

theorem role_reads (p : Plays k) (pc : Pc k.W) :
    (pc.role p.word p.role).reads = pc.held.reads := by
  cases pc with
  | write w h => exact p.reads w h
  | _ => rfl

theorem role_depth (p : Plays k) (pc : Pc k.W) :
    (pc.role p.word p.role).depth = pc.held.depth := by
  cases pc with
  | write w h => exact p.depth w h
  | _ => rfl

/-- A thread that has locked the lock for writing is the one that `writer` is about. -/
theorem At.owner (p : Plays k) (hat : p.At few i m pc) (hdepth : 0 < pc.held.depth) :
    m.owner = some i := by
  rw [← p.role_depth] at hdepth
  exact hat.1.alone (hat.1.depth hdepth)

/-- The access of a thread leaves alone a `writer` that is about another one. -/
theorem other (p : Plays k) (h : Step k i m pc m' pc') (hinv : Inv p.value m)
    (hat : p.At few i m pc) (hj : j ≠ i) {q : Pc k.W} (hq : p.At few j m q)
    (howner : m.owner = some j) : m'.writer = m.writer ∧ m'.owner = some j := by
  obtain ⟨hstep, -⟩ := p.step h hinv hat
  have howns := hq.1.owner.mp howner
  have hother := hstep.other p.value_ne_zero hinv hat.1 hj hq.1
  have howner' := hother.owner.mpr howns
  refine ⟨?_, howner'⟩
  rw [(hstep.inv hinv hat.1).writer, hinv.writer, howner, howner']

/-- Nothing is left behind when everybody is outside. -/
theorem quiet (p : Plays k) (hinv : Inv p.value s.mem) (hall : ∀ i, p.At few i s.mem (s.pc i))
    (hout : ∀ i, s.pc i = .outside ⟨0, 0⟩) :
    s.mem.writer = 0 ∧ s.mem.nReaders = 0 ∧ s.mem.wc = 0 := by
  have hnone : s.mem.owner = none := by
    cases howner : s.mem.owner with
    | none => rfl
    | some i =>
      have howns := (hall i).1.owner.mp howner
      rw [hout i] at howns
      cases howns
  have hnobody : s.mem.counted = 0 := by
    rw [Multiset.eq_zero_iff_forall_notMem]
    intro i
    rw [← Multiset.count_eq_zero, (hall i).1.counted, hout i]
    rfl
  refine ⟨?_, ?_, hinv.wc hnone⟩
  · rw [hinv.writer, hnone]
    rfl
  · rw [hinv.nReaders, hnobody]
    rfl

end Plays

/-! ## The two locks -/

/-- A writer of the plain lock stores one, and has locked it at most once. -/
def Plain.W.role : Plain.W → Held → Role
  | lockFas, h | tryFas, h => h.role fun _ => 0
  | lockSpin, h | tryReaders, h | tryUnlock, h =>
    { h.role fun _ => 0 with
      owns := true
      writes := false }
  | unlock, h | downInc, h =>
    { h.role fun _ => 0 with
      owns := true
      writes := true }
  | downUnlock, h =>
    { h.role fun _ => 0 with
      knocking := true
      owns := true
      writes := true }

def plainPlays (ι : Type) [DecidableEq ι] : Plays (plain ι) where
  value _ := 1
  word _ := 0
  role := Plain.W.role
  bound n := n ≤ 1
  fits _ _ := True
  value_ne_zero _ := Nat.one_ne_zero
  reads w h := by cases w <;> rfl
  depth w h := by cases w <;> rfl
  word_zero := rfl
  bound_zero := Nat.zero_le _
  call {w h} hcall := by
    refine ⟨?_, trivial⟩
    cases w with
    | lockFas | tryFas => rfl
    | unlock | downInc =>
      have hpos : 0 < h.depth := hcall
      simp [Plain.W.role, Held.role, hpos]
    | lockSpin | tryReaders | tryUnlock | downUnlock => exact hcall.elim
  act {few i m w h} hinv hat _ hbound := by
    cases w with
    | lockFas =>
      simp only [plain, Plain.act]
      split
      case isTrue hne =>
        rw [hinv.writer_one hne]
        exact ⟨.stay, trivial, hbound⟩
      case isFalse hfree => exact ⟨.own (not_not.mp hfree), trivial, hbound⟩
    | tryFas =>
      simp only [plain, Plain.act]
      split
      case isTrue hne =>
        rw [hinv.writer_one hne]
        exact ⟨.stay, hbound⟩
      case isFalse hfree => exact ⟨.own (not_not.mp hfree), trivial, hbound⟩
    | lockSpin | tryReaders =>
      have hzero : h.depth = 0 := hat.depth_eq_zero rfl
      simp only [plain, Plain.act]
      split
      case isTrue => exact ⟨.stay, trivial, hbound⟩
      case isFalse hnobody =>
        refine ⟨?_, by simp [Pc.Fits, Held.lock, hzero]⟩
        have hstep : Role.Step (fun _ => 1) i m (Plain.W.role .lockSpin h) m _ :=
          .write rfl (not_not.mp hnobody) 1
        simpa [Pc.role, Plain.W.role, Held.role, Held.lock] using hstep
    | tryUnlock =>
      have hzero : h.depth = 0 := hat.depth_eq_zero rfl
      have hstep : Role.Step (fun _ => 1) i m (Plain.W.role .tryUnlock h) m.disown _ :=
        .disown rfl rfl
      refine ⟨?_, hbound⟩
      simpa [plain, Plain.act, Pc.role, Plain.W.role, Held.role, hzero] using hstep
    | unlock =>
      have hzero : h.depth - 1 = 0 := Nat.sub_eq_zero_of_le hbound
      have hstep : Role.Step (fun _ => 1) i m (Plain.W.role .unlock h) m.disown _ :=
        .disown rfl rfl
      refine ⟨?_, by simp [plain, Plain.act, Pc.Fits, Held.unlock, hzero]⟩
      simpa [plain, Plain.act, Pc.role, Plain.W.role, Held.role, Held.unlock, hzero] using hstep
    | downInc => exact ⟨.inc rfl, trivial, hbound⟩
    | downUnlock =>
      have hzero : h.depth - 1 = 0 := Nat.sub_eq_zero_of_le hbound
      have hstep : Role.Step (fun _ => 1) i m (Plain.W.role .downUnlock h) (m.disown.enter i) _ :=
        .downgrade rfl rfl rfl
      refine ⟨?_, by simp [plain, Plain.act, Pc.Fits, Held.unlock, Held.enter, hzero]⟩
      simpa [plain, Plain.act, Pc.role, Plain.W.role, Held.role, Held.unlock, Held.enter, hzero]
        using hstep

/-- A writer of the lock that may be locked again stores its number. -/
def Recursive.W.role : Recursive.W → Held → Role
  | lockLoad, h | lockCas, h | tryLoad, h | tryCas, h => h.role id
  | lockSpin, h | tryReaders, h | tryStore, h | unlockStore, h =>
    { h.role id with
      owns := true
      writes := false }
  | lockWc, h | tryWc, h | unlockWc, h =>
    { h.role id with
      owns := true
      writes := true }

/-- How often a thread may have locked the lock from where it stands. -/
def Recursive.W.Fits : Recursive.W → Held → Prop
  | lockLoad, h | lockCas, h | lockSpin, h | lockWc, h | tryLoad, h | tryCas, h | tryReaders, h
  | tryWc, h => h.depth + 1 < 2 ^ 32
  | unlockWc, h => 0 < h.depth
  | tryStore, _ | unlockStore, _ => True

/-- A thread that finds its own number in `writer` has locked the lock. -/
theorem At.depth_pos {tid : ι → Nat} (hinj : Function.Injective tid) (hne : ∀ i, tid i ≠ 0)
    {few : Bool} {i : ι} {m : Mem ι} {h : Held} (hinv : Inv tid m) (hat : At few i m (h.role id))
    (hwriter : m.writer = tid i) : 0 < h.depth := by
  have howner : m.owner = some i := by
    rw [hinv.writer] at hwriter
    cases howner : m.owner with
    | none =>
      rw [howner] at hwriter
      exact absurd hwriter.symm (hne i)
    | some j =>
      rw [howner] at hwriter
      rw [hinj hwriter]
  have howns := hat.owner.mp howner
  simpa [Held.role] using howns

def recursivePlays {tid : ι → Nat} (hinj : Function.Injective tid) (hne : ∀ i, tid i ≠ 0) :
    Plays (recursive tid) where
  value := tid
  word := id
  role := Recursive.W.role
  bound n := n < 2 ^ 32
  fits := Recursive.W.Fits
  value_ne_zero := hne
  reads w h := by cases w <;> rfl
  depth w h := by cases w <;> rfl
  word_zero := rfl
  bound_zero := Nat.two_pow_pos 32
  call {w h} hcall := by
    cases w with
    | lockLoad | tryLoad => exact ⟨rfl, hcall⟩
    | unlockWc =>
      have hpos : 0 < h.depth := hcall
      exact ⟨by simp [Recursive.W.role, Held.role, hpos], hpos⟩
    | lockCas | lockSpin | lockWc | tryCas | tryReaders | tryStore | tryWc | unlockStore =>
      exact hcall.elim
  act {few i m w h} hinv hat hfits hbound := by
    cases w with
    | lockLoad | tryLoad =>
      simp only [recursive, Recursive.act]
      split
      case isTrue hwriter =>
        have hpos : 0 < h.depth := hat.depth_pos hinj hne hinv hwriter
        refine ⟨?_, hfits, hbound⟩
        simp only [Pc.role, Recursive.W.role, Held.role, hpos, decide_true]
        exact .stay
      case isFalse => exact ⟨.stay, hfits, hbound⟩
    | lockCas =>
      simp only [recursive, Recursive.act]
      split
      case isTrue hfree => exact ⟨.own hfree, hfits, hbound⟩
      case isFalse => exact ⟨.stay, hfits, hbound⟩
    | tryCas =>
      simp only [recursive, Recursive.act]
      split
      case isTrue hfree => exact ⟨.own hfree, hfits, hbound⟩
      case isFalse => exact ⟨.stay, hbound⟩
    | lockSpin =>
      simp only [recursive, Recursive.act]
      split
      case isTrue => exact ⟨.stay, hfits, hbound⟩
      case isFalse hnobody => exact ⟨.write rfl (not_not.mp hnobody) 0, hfits, hbound⟩
    | tryReaders =>
      simp only [recursive, Recursive.act]
      split
      case isTrue => exact ⟨.stay, trivial, hbound⟩
      case isFalse hnobody => exact ⟨.write rfl (not_not.mp hnobody) 0, hfits, hbound⟩
    | lockWc | tryWc =>
      have hstep : Role.Step tid i m (Recursive.W.role .lockWc h) m.incWc _ := .incWc rfl hfits
      refine ⟨?_, hfits⟩
      simpa [Recursive.act, recursive, Pc.role, Recursive.W.role, Held.role, Held.lock] using hstep
    | tryStore | unlockStore =>
      have hzero : h.depth = 0 := hat.depth_eq_zero rfl
      have hstep : Role.Step tid i m (Recursive.W.role .tryStore h) m.disown _ := .disown rfl hzero
      refine ⟨?_, hbound⟩
      simpa [Recursive.act, recursive, Pc.role, Recursive.W.role, Held.role, hzero] using hstep
    | unlockWc =>
      have hpos : 0 < h.depth := hfits
      have hwc : m.decWc.wc = h.depth - 1 := by
        have hwc : m.wc = h.depth := hat.wc rfl
        simp only [Mem.decWc, Counter.dec, hwc, if_neg (Nat.ne_of_gt hpos)]
      have hlt : h.unlock.depth < 2 ^ 32 := Nat.lt_of_le_of_lt (Nat.sub_le _ _) hbound
      have hstep : Role.Step tid i m (Recursive.W.role .unlockWc h) m.decWc _ := .decWc rfl hfits
      simp only [recursive, Recursive.act, hwc]
      split
      case isTrue hzero =>
        refine ⟨?_, trivial, hlt⟩
        simpa [Pc.role, Recursive.W.role, Held.role, Held.unlock, hzero] using hstep
      case isFalse hnot =>
        refine ⟨?_, hlt⟩
        have hpos' : 0 < h.depth - 1 := Nat.pos_of_ne_zero hnot
        simpa [Pc.role, Recursive.W.role, Held.role, Held.unlock, hpos'] using hstep

/-! ## Runs -/

/-- The plain lock, and the lock that may be locked again by threads with numbers of their own. -/
inductive Lock (ι : Type) : Kind ι → Prop
  | plain : Lock ι (plain ι)
  | recursive {tid : ι → Nat} (hinj : Function.Injective tid) (hne : ∀ i, tid i ≠ 0) :
    Lock ι (recursive tid)

/-- A state in which the writers exclude each other and each of them has `writer` to itself. -/
structure Kept (k : Kind ι) (s : Threads.System (Mem ι) (Pc k.W) ι) : Prop where
  writers : ∀ i j, 0 < (s.pc i).held.depth → 0 < (s.pc j).held.depth → i = j
  owner : ∀ i, 0 < (s.pc i).held.depth → s.mem.owner = some i
  writer : s.mem.owner ≠ none → s.mem.writer ≠ 0
  other : ∀ i j m' pc', Step k i s.mem (s.pc i) m' pc' → j ≠ i → s.mem.owner = some j →
    m'.writer = s.mem.writer ∧ m'.owner = some j
  quiet : (∀ i, s.pc i = .outside ⟨0, 0⟩) → s.mem.writer = 0 ∧ s.mem.nReaders = 0 ∧ s.mem.wc = 0

theorem Plays.kept (p : Plays k) {few : Bool} {s : Threads.System (Mem ι) (Pc k.W) ι}
    (hr : Threads.System.Reachable (Step k) (Few few) (start k) s) : Kept k s := by
  obtain ⟨hinv, hall⟩ := p.reachable hr
  have howner : ∀ i, 0 < (s.pc i).held.depth → s.mem.owner = some i :=
    fun i => At.owner p (hall i)
  refine ⟨fun i j hi hj => ?_, howner, fun hsome => ?_, fun i j m' pc' h hj hown => ?_,
    p.quiet hinv hall⟩
  · exact Option.some.inj ((howner i hi).symm.trans (howner j hj))
  · obtain ⟨j, hj⟩ := Option.ne_none_iff_exists'.mp hsome
    rw [hinv.writer, hj]
    exact p.value_ne_zero j
  · exact p.other h hinv (hall i) hj (hall j) hown

/-- While there are few readers, none of them is inside next to a writer. -/
theorem Plays.readers (p : Plays k) {s : Threads.System (Mem ι) (Pc k.W) ι}
    (hr : Threads.System.Reachable (Step k) (Few true) (start k) s) {i j : ι}
    (hi : 0 < (s.pc i).held.depth) : (s.pc j).held.reads = 0 := by
  obtain ⟨-, hall⟩ := p.reachable hr
  have hat := (hall i).1
  rw [← p.role_depth] at hi
  have hnobody : s.mem.inside = 0 := hat.excludes rfl (hat.depth hi)
  have hcount := (hall j).1.inside
  rw [hnobody, p.role_reads] at hcount
  simpa using hcount.symm

theorem Lock.plays (hk : Lock ι k) : Nonempty (Plays k) := by
  cases hk with
  | plain => exact ⟨plainPlays ι⟩
  | recursive hinj hne => exact ⟨recursivePlays hinj hne⟩

/-- In both locks the writers exclude each other, no access of a thread touches a `writer` that is
about another one, and all fields are zero when everybody is outside. While fewer readers are
counted than `n_readers` has values, no reader is inside next to a writer. In the lock that may be
locked again, `wc` is the depth of a writer that is between two calls. -/
theorem locks_exclude :
    (∀ k : Kind ι, Lock ι k →
      (∀ s, Threads.System.Reachable (Step k) (fun _ _ _ => True) (start k) s → Kept k s) ∧
      ∀ s, Threads.System.Reachable (Step k) (Few true) (start k) s →
        ∀ i j, 0 < (s.pc i).held.depth → (s.pc j).held.reads = 0) ∧
    ∀ tid : ι → Nat, Function.Injective tid → (∀ i, tid i ≠ 0) →
      ∀ s, Threads.System.Reachable (Step (recursive tid)) (fun _ _ _ => True)
        (start (recursive tid)) s →
      ∀ i h, s.pc i = .outside h → 0 < h.depth → s.mem.wc = h.depth := by
  have hall : ∀ (k : Kind ι) (s : Threads.System (Mem ι) (Pc k.W) ι),
      Threads.System.Reachable (Step k) (fun _ _ _ => True) (start k) s →
      Threads.System.Reachable (Step k) (Few false) (start k) s :=
    fun _ _ hr => hr.map id (fun _ _ _ _ _ h => h) fun _ _ _ _ h => by cases h
  refine ⟨fun k hk => ?_, fun tid hinj hne s hr i h hpc hdepth => ?_⟩
  · obtain ⟨p⟩ := hk.plays
    exact ⟨fun s hr => p.kept (hall k s hr), fun s hr i j hi => p.readers hr hi⟩
  · have hat := ((recursivePlays hinj hne).reachable (hall _ s hr)).2 i
    rw [hpc] at hat
    exact hat.1.wc (decide_eq_true hdepth)

/-- A run in which a thread makes `n` more accesses. -/
theorem acts_reachable {ok : ι → Mem ι → Pc k.W → Prop} {s₀ s : Threads.System (Mem ι) (Pc k.W) ι}
    (hr : Threads.System.Reachable (Step k) ok s₀ s) (i : ι) (n : Nat)
    (good : ∀ l < n + 1, ∀ j, ok j (s.acts (act k) i l).mem ((s.acts (act k) i l).pc j)) :
    Threads.System.Reachable (Step k) ok s₀ (s.acts (act k) i n) :=
  hr.acts i n (fun _ _ _ _ _ _ => .inr .act) good

/-- The two threads of a run have the numbers one and two. -/
def twoTids : Bool → Nat
  | true => 1
  | false => 2

/-- A writer locks the lock twice. A reader finds it locked and goes away. -/
theorem locks_exclude_twice :
    ∃ s : Threads.System (Mem Bool) (Pc (recursive twoTids).W) Bool,
      s.pc true = .outside ⟨0, 2⟩ ∧ s.pc false = .outside ⟨0, 0⟩ ∧ s.mem.wc = 2 ∧
        Kept (recursive twoTids) s ∧ (s.pc false).held.reads = 0 := by
  have hinj : Function.Injective twoTids := by decide
  have hne : ∀ i, twoTids i ≠ 0 := by decide
  have h₀ : Threads.System.Reachable (Step (recursive twoTids)) (Few true)
      (start (recursive twoTids)) (start (recursive twoTids)) := .refl
  have h₁ := h₀.call true (p := .write Recursive.W.lockLoad ⟨0, 0⟩)
    (.write (show 0 + 1 < 2 ^ 32 by decide)) fun _ _ => by decide +kernel
  have h₂ := acts_reachable h₁ true 4 fun l hl _ _ => by
    interval_cases l <;> decide +kernel
  have h₃ := h₂.call true (p := .write Recursive.W.lockLoad ⟨0, 1⟩)
    (.write (show 1 + 1 < 2 ^ 32 by decide)) fun _ _ => by decide +kernel
  have h₄ := acts_reachable h₃ true 2 fun l hl _ _ => by
    interval_cases l <;> decide +kernel
  have h₅ := h₄.call false (p := .tryLoad ⟨0, 0⟩) .readTry fun _ _ => by decide +kernel
  have h₆ := acts_reachable h₅ false 1 fun l hl _ _ => by
    interval_cases l <;> decide +kernel
  have hr : Threads.System.Reachable (Step (recursive twoTids)) (fun _ _ _ => True)
      (start (recursive twoTids)) _ := h₆.map id (fun _ _ _ _ _ h => h) fun _ _ _ _ => trivial
  have hlocked := locks_exclude.1 _ (.recursive hinj hne)
  refine ⟨_, rfl, rfl, ?_, hlocked.1 _ hr, hlocked.2 _ h₆ true false (by decide +kernel)⟩
  exact locks_exclude.2 twoTids hinj hne _ hr true ⟨0, 2⟩ rfl (by decide)

/-! ## More readers than the word has values -/

section Crowd

variable {s₀ s : Threads.System (Mem ι) (Pc (plain ι).W) ι} {i : ι}

/-- A thread that finds `writer` to be zero gets in to read. -/
theorem reader_enters
    (hr : Threads.System.Reachable (Step (plain ι)) (fun _ _ _ => True) s₀ s)
    (hout : s.pc i = .outside ⟨0, 0⟩) (hfree : s.mem.writer = 0) :
    Threads.System.Reachable (Step (plain ι)) (fun _ _ _ => True) s₀
      ⟨(s.mem.inc i).enter i, Function.update s.pc i (.outside ⟨1, 0⟩)⟩ := by
  have h₁ := hr.call i (p := .tryLoad ⟨0, 0⟩) (by rw [hout]; exact .readTry) fun _ => trivial
  have h₂ := acts_reachable h₁ i 3 fun _ _ _ => trivial
  simpa [Threads.System.acts, Threads.System.call, act, hfree, Mem.inc, Held.enter] using h₂

/-- A thread that finds both words to be zero gets in to write. -/
theorem writer_enters
    (hr : Threads.System.Reachable (Step (plain ι)) (fun _ _ _ => True) s₀ s)
    (hout : s.pc i = .outside ⟨0, 0⟩) (hfree : s.mem.writer = 0) (hzero : s.mem.nReaders = 0) :
    Threads.System.Reachable (Step (plain ι)) (fun _ _ _ => True) s₀
      ⟨s.mem.own i 1, Function.update s.pc i (.outside ⟨0, 1⟩)⟩ := by
  have h₁ := hr.call i (p := .write Plain.W.lockFas ⟨0, 0⟩)
    (by rw [hout]; exact .write trivial) fun _ => trivial
  have h₂ := acts_reachable h₁ i 2 fun _ _ _ => trivial
  simpa [Threads.System.acts, Threads.System.call, act, plain, Plain.act, hfree, hzero, Mem.own,
    Held.lock] using h₂

end Crowd

/-- The first `n` threads read. -/
def crowd (n : Nat) : Threads.System (Mem Nat) (Pc (plain Nat).W) Nat where
  mem := ⟨0, n % 2 ^ 32, 0, none, Multiset.range n, Multiset.range n⟩
  pc := fun i => if i < n then .outside ⟨1, 0⟩ else .outside ⟨0, 0⟩

theorem crowd_pc {n i : Nat} (h : i < n) : (crowd n).pc i = .outside ⟨1, 0⟩ :=
  if_pos h

theorem crowd_out {n i : Nat} (h : n ≤ i) : (crowd n).pc i = .outside ⟨0, 0⟩ :=
  if_neg (Nat.not_lt.mpr h)

theorem crowd_reachable (n : Nat) :
    Threads.System.Reachable (Step (plain Nat)) (fun _ _ _ => True) (start (plain Nat))
      (crowd n) := by
  induction n with
  | zero => exact .refl
  | succ n ih =>
    have hnext := reader_enters (i := n) ih (crowd_out (le_refl n)) rfl
    have hmem : ((crowd n).mem.inc n).enter n = (crowd (n + 1)).mem := by
      simp only [crowd, Mem.inc, Mem.enter, Counter.inc_mod, Multiset.range_succ]
    have hpc : Function.update (crowd n).pc n (.outside ⟨1, 0⟩) = (crowd (n + 1)).pc := by
      funext i
      by_cases hi : i = n
      · simp [crowd, hi]
      · have hle : i ≤ n ↔ i < n := by omega
        simp [crowd, hi, hle]
    rw [hmem, hpc] at hnext
    exact hnext

/-- As many threads read as `n_readers` has values. It is zero, and a writer gets in. -/
theorem crowd_locked : ∃ s : Threads.System (Mem Nat) (Pc (plain Nat).W) Nat,
    Threads.System.Reachable (Step (plain Nat)) (fun _ _ _ => True) (start (plain Nat)) s ∧
      ∃ i j, s.pc i = .outside ⟨0, 1⟩ ∧ s.pc j = .outside ⟨1, 0⟩ := by
  have hr := writer_enters (i := 2 ^ 32) (crowd_reachable (2 ^ 32)) (crowd_out (le_refl _)) rfl
    (Nat.mod_self _)
  have hlt : 0 < 2 ^ 32 := Nat.two_pow_pos 32
  have hreads : Function.update (crowd (2 ^ 32)).pc (2 ^ 32) (.outside ⟨0, 1⟩) 0 =
      .outside ⟨1, 0⟩ := by
    rw [Function.update_of_ne (Nat.ne_of_lt hlt)]
    exact crowd_pc hlt
  exact ⟨_, hr, 2 ^ 32, 0, Function.update_self .., hreads⟩

end ConcurrencyKit.Rwlock
