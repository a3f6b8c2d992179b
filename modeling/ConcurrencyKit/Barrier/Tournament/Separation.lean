import ConcurrencyKit.Barrier.Tournament.Roles

/-!
# No thread of a tournament barrier is ahead of another one

A flag that a loser sets tells in how many calls it has done so, up to a multiple of two, and its
winner is at most one call behind. So the champion ends the climb when all threads have come. A
thread is only woken in a call in which the champion has ended the climb.
-/

namespace ConcurrencyKit.Barrier.Tournament

variable {ι : Type} {junk : Nat → Nat → Round} {nthr : Nat}

/-- The flags of the winners and of the threads that wait to be woken. -/
structure Inv (nthr : Nat) (m : Mem ι) : Prop where
  counted : m.roster.Counted
  absent : ∀ t, m.roster.members.length ≤ t → m.calls t = 0
  untouched : ∀ t, m.roster.members.length ≤ t → m.woken t = 0
  reports_le : ∀ t, m.reports t ≤ m.calls t
  tree : ∀ c, c ≠ 0 → c < nthr → m.reports (above nthr c) ≤ m.reports c
  told : ∀ c, c ≠ 0 → c < nthr → m.flag (above nthr c, stop nthr c) = sense (m.reports c + 1)
  woken_le : ∀ t, m.woken t ≤ m.reports 0
  asleep : ∀ c, c ≠ 0 → c < nthr → m.woken c = m.reports 0 →
    m.flag (c, stop nthr c) = sense (m.reports 0 + 1)

/-- A thread with a number that has returned from `n` calls and started `c` of them. All threads
below it have come in `r` of them, and it has been woken in `w`. -/
structure Member (i : ι) (m : Mem ι) (state : State) (n c r w : Nat) : Prop where
  has : m.roster.Has state.vpid i
  calls : m.calls state.vpid = c
  reports : m.reports state.vpid = r
  woken : state.vpid ≠ 0 → m.woken state.vpid = w
  sense : state.sense = sense n
  le : n ≤ m.reports 0

/-- The thread below `t` in round `k` has come in the call after `n`, if there is one. -/
def Ready (nthr : Nat) (m : Mem ι) (t n k : Nat) : Prop :=
  1 ≤ k → t + 2 ^ (k - 1) < nthr → n < m.reports (t + 2 ^ (k - 1))

/-- What the program counter of a thread says about the memory. -/
def At (junk : Nat → Nat → Round) (nthr : Nat) (i : ι) (m : Mem ι) : Pc → Prop
  | .new => i ∉ m.roster.members
  | .idle state n => Member i m state n n n n
  | .quit _ _ => False
  | .climb state n r =>
    Member i m state n (n + 1) n n ∧ 1 ≤ r ∧ r ≤ stop nthr state.vpid ∧
      ∀ k < r, Ready nthr m state.vpid n k
  | .win state n r =>
    Member i m state n (n + 1) n n ∧ 1 ≤ r ∧ r < stop nthr state.vpid ∧
      role junk nthr state.vpid r = .winner ∧ ∀ k < r, Ready nthr m state.vpid n k
  | .lose state n r =>
    Member i m state n (n + 1) (n + 1) n ∧ r = stop nthr state.vpid ∧ state.vpid ≠ 0
  | .champion state n r =>
    Member i m state n (n + 1) n n ∧ r = stop nthr state.vpid ∧ state.vpid = 0 ∧
      ∀ k < r, Ready nthr m state.vpid n k
  | .crown state n r =>
    Member i m state n (n + 1) (n + 1) (n + 1) ∧ n < m.reports 0 ∧ r = stop nthr state.vpid ∧
      state.vpid = 0
  | .descend state n r =>
    Member i m state n (n + 1) (n + 1) (n + 1) ∧ n < m.reports 0 ∧ r < stop nthr state.vpid
  | .leave state n => Member i m state n (n + 1) (n + 1) (n + 1) ∧ n < m.reports 0

/-! ## Steps -/

variable {i j : ι} {m m' : Mem ι} {state : State} {n r : Nat}

/-- The champion has ended the climb in no more calls than all threads have come in. -/
theorem Inv.root_le (h2 : 2 ≤ nthr) (hn : nthr ≤ 2 ^ 31) (hi : Inv nthr m) {t : Nat}
    (ht : t < nthr) : m.reports 0 ≤ m.reports t := by
  induction t using Nat.strong_induction_on with
  | _ t ih =>
    by_cases h0 : t = 0
    · rw [h0]
    · have hlt := above_lt h2 hn h0
      exact (ih (above nthr t) hlt (hlt.trans ht)).trans (hi.tree t h0 ht)

/-- What a thread knows stays true when others go on. -/
theorem At.mono {p : Pc} (h : At junk nthr j m p) (hreports : ∀ t, m.reports t ≤ m'.reports t)
    (hhas : ∀ t, m.roster.Has t j → m'.roster.Has t j)
    (hnew : j ∉ m.roster.members → j ∉ m'.roster.members)
    (hown : ∀ t, m.roster.Has t j → m'.calls t = m.calls t ∧ m'.reports t = m.reports t ∧
      m'.woken t = m.woken t) : At junk nthr j m' p := by
  have hmember : ∀ {state n c r w}, Member j m state n c r w → Member j m' state n c r w := by
    intro state n c r w hm
    obtain ⟨hcalls, hreports', hwoken⟩ := hown _ hm.has
    exact ⟨hhas _ hm.has, hcalls.trans hm.calls, hreports'.trans hm.reports,
      fun h0 => hwoken.trans (hm.woken h0), hm.sense, hm.le.trans (hreports 0)⟩
  have hready : ∀ {t n k}, Ready nthr m t n k → Ready nthr m' t n k :=
    fun h hk hlt => (h hk hlt).trans_le (hreports _)
  cases p with
  | new => exact hnew h
  | idle state n => exact hmember h
  | quit => exact h
  | climb state n r => exact ⟨hmember h.1, h.2.1, h.2.2.1, fun k hk => hready (h.2.2.2 k hk)⟩
  | win state n r =>
    exact ⟨hmember h.1, h.2.1, h.2.2.1, h.2.2.2.1, fun k hk => hready (h.2.2.2.2 k hk)⟩
  | lose state n r => exact ⟨hmember h.1, h.2⟩
  | champion state n r => exact ⟨hmember h.1, h.2.1, h.2.2.1, fun k hk => hready (h.2.2.2 k hk)⟩
  | crown state n r => exact ⟨hmember h.1, h.2.1.trans_le (hreports 0), h.2.2⟩
  | descend state n r => exact ⟨hmember h.1, h.2.1.trans_le (hreports 0), h.2.2⟩
  | leave state n => exact ⟨hmember h.1, h.2.trans_le (hreports 0)⟩

theorem Inv.call (hi : Inv nthr m) (hm : m.roster.Has state.vpid i) :
    Inv nthr (m.call state.vpid) where
  counted := hi.counted
  absent t ht := by
    have hne : t ≠ state.vpid := ne_of_gt (hm.lt.trans_le ht)
    simp only [Mem.call, Function.update_of_ne hne]
    exact hi.absent t ht
  untouched := hi.untouched
  reports_le t := (hi.reports_le t).trans (le_update_succ m.calls state.vpid t)
  tree := hi.tree
  told := hi.told
  woken_le := hi.woken_le
  asleep := hi.asleep

theorem at_call (h2 : 2 ≤ nthr) (hn : nthr ≤ 2 ^ 31) (h : At junk nthr i m (.idle state n)) :
    At junk nthr i (m.call state.vpid) (.climb state n 1) := by
  refine ⟨⟨h.has, ?_, h.reports, h.woken, h.sense, h.le⟩, le_rfl, one_le_stop h2 hn,
    fun k hk hk1 => by omega⟩
  simp only [Mem.call, Function.update_self, h.calls]

/-- A flag with the sense of the call has been set by the thread below in that call. -/
theorem ready_of_flag (hi : Inv nthr m) {c w : Nat} (hm : Member i m state n c n w)
    (hr1 : 1 ≤ r) (hbelow : r < stop nthr state.vpid ∨ state.vpid = 0)
    (hflag : m.flag (state.vpid, r) = state.sense) : Ready nthr m state.vpid n r := by
  intro _ hlt
  obtain ⟨hstop, habove⟩ := stop_below nthr hr1 hbelow
  have hpos : 0 < 2 ^ (r - 1) := by positivity
  have htold := hi.told _ (by omega) hlt
  have htree := hi.tree _ (by omega) hlt
  rw [hstop, habove, hflag, hm.sense, sense_eq_iff] at htold
  rw [habove, hm.reports] at htree
  omega

/-- All threads below a thread have come when those below it in the single rounds have. -/
theorem ready_all (h2 : 2 ≤ nthr) (hn : nthr ≤ 2 ^ 31)
    (hready : ∀ k, k < stop nthr state.vpid ∨ state.vpid = 0 ∧ k = stop nthr state.vpid →
      Ready nthr m state.vpid n k) {c : Nat} (hc : c ≠ 0) (hlt : c < nthr)
    (habove : above nthr c = state.vpid) : n < m.reports c := by
  have hadd := above_add h2 hn hc
  rw [habove] at hadd
  have hstop : stop nthr c < stop nthr state.vpid ∨
      state.vpid = 0 ∧ stop nthr c = stop nthr state.vpid := by
    by_cases h0 : state.vpid = 0
    · have hle := stop_le h2 hn hlt
      rw [h0, stop_zero]
      omega
    · exact .inl (habove ▸ stop_lt_above h2 hn hc (habove.symm ▸ h0))
  have := hready _ hstop (one_le_stop h2 hn) (hadd.symm ▸ hlt)
  rwa [hadd] at this

theorem reports_report (m : Mem ι) (t t' : Nat) :
    (m.report t).reports t' = if t' = t then m.reports t + 1 else m.reports t' :=
  Function.update_apply ..

theorem reports_le_report (m : Mem ι) (t t' : Nat) : m.reports t' ≤ (m.report t).reports t' :=
  le_update_succ m.reports t t'

/-- A thread says that all threads below it have come. A loser sets a flag with it. -/
theorem Inv.report (h2 : 2 ≤ nthr) (hn : nthr ≤ 2 ^ 31) (hi : Inv nthr m)
    (hm : Member i m state n (n + 1) n n)
    (hready : ∀ c, c ≠ 0 → c < nthr → above nthr c = state.vpid → n < m.reports c)
    (hroster : m'.roster = m.roster) (hcalls : m'.calls = m.calls) (hwoken : m'.woken = m.woken)
    (hreports : m'.reports = (m.report state.vpid).reports)
    (hown : state.vpid ≠ 0 →
      m'.flag (above nthr state.vpid, stop nthr state.vpid) = state.sense)
    (hflag : ∀ d, state.vpid = 0 ∨ d ≠ (above nthr state.vpid, stop nthr state.vpid) →
      m'.flag d = m.flag d) : Inv nthr m' := by
  have hself : m'.reports state.vpid = n + 1 := by
    rw [hreports, reports_report, if_pos rfl, hm.reports]
  have hother : ∀ t, t ≠ state.vpid → m'.reports t = m.reports t := by
    intro t ht
    rw [hreports, reports_report, if_neg ht]
  have hle : ∀ t, m.reports t ≤ m'.reports t := fun t => hreports ▸ reports_le_report m _ t
  refine ⟨hroster ▸ hi.counted, hroster ▸ hcalls ▸ hi.absent, hroster ▸ hwoken ▸ hi.untouched,
    fun t => ?_, fun c hc hcn => ?_, fun c hc hcn => ?_,
    fun t => hwoken ▸ (hi.woken_le t).trans (hle 0), fun c hc hcn hc' => ?_⟩
  · rw [hcalls]
    by_cases ht : t = state.vpid
    · rw [ht, hself]
      exact hm.calls.ge
    · rw [hother t ht]
      exact hi.reports_le t
  · by_cases hp : above nthr c = state.vpid
    · have hne : c ≠ state.vpid := fun heq => (above_lt h2 hn hc).ne (hp.trans heq.symm)
      rw [hp, hself, hother c hne]
      exact hready c hc hcn hp
    · rw [hother _ hp]
      exact (hi.tree c hc hcn).trans (hle c)
  · by_cases hcv : c = state.vpid
    · rw [hcv, hself, hown (hcv ▸ hc), hm.sense, sense_eq_iff]
      omega
    · rw [hother c hcv, ← hi.told c hc hcn]
      refine hflag _ ?_
      by_cases h0 : state.vpid = 0
      · exact .inl h0
      · refine .inr fun heq => hcv ?_
        obtain ⟨habove, hstop⟩ := Prod.mk.inj heq
        rw [← above_add h2 hn hc, ← above_add h2 hn h0, habove, hstop]
  · by_cases h0 : state.vpid = 0
    · -- nobody has been woken in a call in which the champion has not ended the climb before
      have hlt := hi.woken_le c
      have hnow := h0 ▸ hm.reports
      rw [h0] at hself
      rw [hwoken, hself] at hc'
      omega
    · rw [hother 0 (Ne.symm h0)] at hc' ⊢
      rw [hwoken] at hc'
      rw [← hi.asleep c hc hcn hc']
      refine hflag _ (.inr fun heq => ?_)
      obtain ⟨habove, hstop⟩ := Prod.mk.inj heq
      have hlt := stop_lt_above h2 hn h0 (habove ▸ hc)
      rw [← habove, hstop] at hlt
      exact lt_irrefl _ hlt

/-- What a thread does in a round of its climb. -/
theorem act_climb (junk : Nat → Nat → Round) (h2 : 2 ≤ nthr) (hn : nthr ≤ 2 ^ 31)
    (hlt : state.vpid < nthr) (hr1 : 1 ≤ r)
    (hstop : r ≤ stop nthr state.vpid) :
    (r < stop nthr state.vpid ∧ role junk nthr state.vpid r = .winner ∧
        act junk nthr m (.climb state n r) = (m, .win state n r)) ∨
      (r < stop nthr state.vpid ∧ ¬ state.vpid + 2 ^ (r - 1) < nthr ∧
        act junk nthr m (.climb state n r) = (m, .climb state n (r + 1))) ∨
      (r = stop nthr state.vpid ∧ state.vpid = 0 ∧
        act junk nthr m (.climb state n r) = (m, .champion state n r)) ∨
      (r = stop nthr state.vpid ∧ state.vpid ≠ 0 ∧
        act junk nthr m (.climb state n r) =
          ((m.store (above nthr state.vpid, r) state.sense).report state.vpid,
            .lose state n r)) := by
  rcases hstop.lt_or_eq with hstop | hstop
  · have hrole := role_of_lt junk h2 hn hlt hr1 hstop
    split at hrole
    case isTrue hopp => exact .inl ⟨hstop, hrole, by simp only [act, hrole]⟩
    case isFalse hopp => exact .inr (.inl ⟨hstop, hopp, by simp only [act, hrole]⟩)
  · by_cases h0 : state.vpid = 0
    · have hrole : role junk nthr state.vpid r = .champion := by
        rw [hstop, h0]
        exact role_champion _ h2 hn
      exact .inr (.inr (.inl ⟨hstop, h0, by simp only [act, hrole]⟩))
    · have hrole : role junk nthr state.vpid r = .loser := by
        rw [hstop]
        exact role_stop _ h2 hn hlt h0
      have hopp : opponent junk nthr state.vpid r = (above nthr state.vpid, r) := by
        rw [hstop]
        exact opponent_stop _ h2 hn hlt h0
      exact .inr (.inr (.inr ⟨hstop, h0, by simp only [act, hrole, hopp]⟩))

theorem climb_step (h2 : 2 ≤ nthr) (hn : nthr ≤ 2 ^ 31) (hlt : state.vpid < nthr)
    (hi : Inv nthr m) (h : At junk nthr i m (.climb state n r)) :
    Inv nthr (act junk nthr m (.climb state n r)).1 ∧
      At junk nthr i (act junk nthr m (.climb state n r)).1
        (act junk nthr m (.climb state n r)).2 := by
  obtain ⟨hm, hr1, hstop, hready⟩ := h
  rcases act_climb junk (m := m) (n := n) h2 hn hlt hr1 hstop with
    ⟨hlt', hrole, hact⟩ | ⟨hlt', hopp, hact⟩ | ⟨heq, h0, hact⟩ | ⟨heq, h0, hact⟩
  · rw [hact]
    exact ⟨hi, hm, hr1, hlt', hrole, hready⟩
  · rw [hact]
    refine ⟨hi, hm, by omega, hlt', fun k hk => ?_⟩
    rcases Nat.lt_succ_iff_lt_or_eq.mp hk with hk | rfl
    · exact hready k hk
    · exact fun _ habs => absurd habs hopp
  · rw [hact]
    exact ⟨hi, hm, heq, h0, hready⟩
  · rw [hact]
    have hall : ∀ c, c ≠ 0 → c < nthr → above nthr c = state.vpid → n < m.reports c := by
      refine fun c hc hcn => ready_all h2 hn (fun k hk => ?_) hc hcn
      exact hready k (by omega)
    refine ⟨hi.report h2 hn hm hall rfl rfl rfl rfl (fun _ => ?_) fun d hd => ?_, ?_⟩
    · rw [← heq]
      exact Function.update_self ..
    · have hne : d ≠ (above nthr state.vpid, r) := heq ▸ hd.resolve_left h0
      exact Function.update_of_ne hne ..
    · refine ⟨⟨hm.has, hm.calls, ?_, hm.woken, hm.sense, ?_⟩, heq, h0⟩
      · exact (reports_report ..).trans ((if_pos rfl).trans (congrArg (· + 1) hm.reports))
      · exact hm.le.trans (reports_le_report (m.store _ _) _ 0)

theorem at_win (hi : Inv nthr m) (h : At junk nthr i m (.win state n r)) :
    At junk nthr i m (act junk nthr m (.win state n r)).2 := by
  obtain ⟨hm, hr1, hstop, hrole, hready⟩ := h
  simp only [act]
  split
  case isTrue => exact ⟨hm, hr1, hstop, hrole, hready⟩
  case isFalse hflag =>
    refine ⟨hm, by omega, hstop, fun k hk => ?_⟩
    rcases Nat.lt_succ_iff_lt_or_eq.mp hk with hk | rfl
    · exact hready k hk
    · exact ready_of_flag hi hm hr1 (.inl hstop) (not_not.mp hflag)

theorem Inv.champion (h2 : 2 ≤ nthr) (hn : nthr ≤ 2 ^ 31) (hi : Inv nthr m)
    (h : At junk nthr i m (.champion state n r))
    (hflag : m.flag (state.vpid, r) = state.sense) : Inv nthr (m.report state.vpid) := by
  obtain ⟨hm, hstop, h0, hready⟩ := h
  have hlast : Ready nthr m state.vpid n r :=
    ready_of_flag hi hm (hstop ▸ one_le_stop h2 hn) (.inr h0) hflag
  refine hi.report h2 hn hm (fun c hc hcn => ready_all h2 hn (fun k hk => ?_) hc hcn) rfl rfl rfl
    rfl (fun hne => absurd h0 hne) fun d _ => rfl
  rcases hk with hk | ⟨-, hk⟩
  · exact hready k (hstop ▸ hk)
  · rw [hk, ← hstop]
    exact hlast

theorem at_champion (h : At junk nthr i m (.champion state n r)) :
    At junk nthr i (m.report state.vpid) (.crown state n r) := by
  obtain ⟨hm, hstop, h0, -⟩ := h
  have hself : (m.report state.vpid).reports state.vpid = n + 1 := by
    rw [reports_report, if_pos rfl, hm.reports]
  have hroot : n < (m.report state.vpid).reports 0 := by
    rw [← h0, hself]
    exact Nat.lt_succ_self n
  exact ⟨⟨hm.has, hm.calls, hself, fun hne => absurd h0 hne, hm.sense, hroot.le⟩, hroot, hstop,
    h0⟩

/-- A loser that sees the sense of the call is woken in it. -/
theorem lt_of_sense (h : At junk nthr i m (.lose state n r)) (hlt : state.vpid < nthr)
    (hi : Inv nthr m) (hflag : m.flag (state.vpid, r) = state.sense) : n < m.reports 0 := by
  obtain ⟨hm, hstop, h0⟩ := h
  refine lt_of_le_of_ne hm.le fun heq => ?_
  have hasleep := hi.asleep state.vpid h0 hlt ((hm.woken h0).trans heq)
  rw [← hstop, hflag, hm.sense, ← heq, sense_eq_iff] at hasleep
  omega

theorem Inv.wake (hi : Inv nthr m) (h : At junk nthr i m (.lose state n r))
    (hlt : state.vpid < nthr) (hflag : m.flag (state.vpid, r) = state.sense) :
    Inv nthr (m.wake state.vpid) := by
  have hroot := lt_of_sense h hlt hi hflag
  obtain ⟨hm, hstop, h0⟩ := h
  have hwoken := hm.woken h0
  refine ⟨hi.counted, hi.absent, fun t ht => ?_, hi.reports_le, hi.tree, hi.told, fun t => ?_,
    fun c hc hcn hc' => ?_⟩
  · have hne : t ≠ state.vpid := ne_of_gt (hm.has.lt.trans_le ht)
    exact (Function.update_of_ne hne ..).trans (hi.untouched t ht)
  · simp only [Mem.wake]
    by_cases heq : t = state.vpid
    · subst heq
      rw [Function.update_self, hwoken]
      exact hroot
    · rw [Function.update_of_ne heq]
      exact hi.woken_le t
  · simp only [Mem.wake] at hc' ⊢
    by_cases heq : c = state.vpid
    · subst heq
      rw [Function.update_self, hwoken] at hc'
      rw [← hstop, hflag, hm.sense, ← hc', sense_eq_iff]
      omega
    · rw [Function.update_of_ne heq] at hc'
      exact hi.asleep c hc hcn hc'

theorem at_wake (h2 : 2 ≤ nthr) (hn : nthr ≤ 2 ^ 31) (hi : Inv nthr m)
    (h : At junk nthr i m (.lose state n r)) (hlt : state.vpid < nthr)
    (hflag : m.flag (state.vpid, r) = state.sense) :
    At junk nthr i (m.wake state.vpid) (.descend state n (r - 1)) := by
  have hroot := lt_of_sense h hlt hi hflag
  obtain ⟨hm, hstop, h0⟩ := h
  have hone := one_le_stop (i := state.vpid) h2 hn
  refine ⟨⟨hm.has, hm.calls, hm.reports, fun _ => ?_, hm.sense, hm.le⟩, hroot, by omega⟩
  simp only [Mem.wake, Function.update_self, hm.woken h0]

/-- A thread wakes the one that is below it in a round. -/
theorem Inv.wakeBelow (h2 : 2 ≤ nthr) (hn : nthr ≤ 2 ^ 31) (hi : Inv nthr m)
    (hm : Member i m state n (n + 1) (n + 1) (n + 1)) (hlt : state.vpid < nthr)
    (hr1 : 1 ≤ r) (hbelow : r < stop nthr state.vpid ∨ state.vpid = 0) (hroot : n < m.reports 0) :
    Inv nthr (m.store (state.vpid + 2 ^ (r - 1), r) state.sense) := by
  obtain ⟨hstop, habove⟩ := stop_below nthr hr1 hbelow
  have hpos : 0 < 2 ^ (r - 1) := by positivity
  have hle := hi.root_le h2 hn hlt
  rw [hm.reports] at hle
  refine ⟨hi.counted, hi.absent, hi.untouched, hi.reports_le, hi.tree, fun c hc hcn => ?_,
    hi.woken_le, fun c hc hcn hc' => ?_⟩
  · rw [show (m.store _ _).reports = m.reports from rfl, ← hi.told c hc hcn]
    refine Function.update_of_ne (fun heq => ?_) ..
    obtain ⟨habove', hstop'⟩ := Prod.mk.inj heq
    have := stop_lt_above h2 hn hc (by omega)
    rw [habove', hstop, hstop'] at this
    exact lt_irrefl _ this
  · by_cases heq : (c, stop nthr c) = (state.vpid + 2 ^ (r - 1), r)
    · simp only [Mem.store, heq, Function.update_self, hm.sense]
      rw [sense_eq_iff]
      omega
    · exact (Function.update_of_ne heq ..).trans (hi.asleep c hc hcn hc')

theorem crown_step (h2 : 2 ≤ nthr) (hn : nthr ≤ 2 ^ 31) (hlt : state.vpid < nthr)
    (hi : Inv nthr m) (h : At junk nthr i m (.crown state n r)) :
    Inv nthr (act junk nthr m (.crown state n r)).1 ∧
      At junk nthr i (act junk nthr m (.crown state n r)).1
        (act junk nthr m (.crown state n r)).2 := by
  obtain ⟨hm, hroot, hstop, h0⟩ := h
  have hone := one_le_stop (i := state.vpid) h2 hn
  have hrole : role junk nthr state.vpid r = .champion := by
    rw [hstop, h0]
    exact role_champion _ h2 hn
  have hopp := opponent_below junk h2 hn hlt (hstop ▸ hone) (hstop ▸ stop_le h2 hn hlt)
    (.inr hrole)
  simp only [act, hopp]
  exact ⟨hi.wakeBelow h2 hn hm hlt (hstop ▸ hone) (.inr h0) hroot,
    ⟨hm.has, hm.calls, hm.reports, hm.woken, hm.sense, hm.le⟩, hroot, by omega⟩

/-- What a thread does in a round on the way down. -/
theorem act_descend (junk : Nat → Nat → Round) (h2 : 2 ≤ nthr) (hn : nthr ≤ 2 ^ 31)
    (hlt : state.vpid < nthr)
    (hstop : r < stop nthr state.vpid) :
    (r = 0 ∧ act junk nthr m (.descend state n r) = (m, .leave state n)) ∨
      (1 ≤ r ∧ act junk nthr m (.descend state n r) = (m, .descend state n (r - 1))) ∨
      (1 ≤ r ∧ act junk nthr m (.descend state n r) =
        (m.store (state.vpid + 2 ^ (r - 1), r) state.sense, .descend state n (r - 1))) := by
  rcases Nat.eq_zero_or_pos r with rfl | hr1
  · have hrole : role junk nthr state.vpid 0 = .dropout := if_pos rfl
    exact .inl ⟨rfl, by simp only [act, hrole]⟩
  · have hrole := role_of_lt junk h2 hn hlt hr1 hstop
    split at hrole
    case isTrue =>
      have hle := stop_le h2 hn hlt
      have hopp := opponent_below junk h2 hn hlt hr1 (by omega) (.inl hrole)
      exact .inr (.inr ⟨hr1, by simp only [act, hrole, hopp]⟩)
    case isFalse => exact .inr (.inl ⟨hr1, by simp only [act, hrole]⟩)

theorem descend_step (h2 : 2 ≤ nthr) (hn : nthr ≤ 2 ^ 31) (hlt : state.vpid < nthr)
    (hi : Inv nthr m) (h : At junk nthr i m (.descend state n r)) :
    Inv nthr (act junk nthr m (.descend state n r)).1 ∧
      At junk nthr i (act junk nthr m (.descend state n r)).1
        (act junk nthr m (.descend state n r)).2 := by
  obtain ⟨hm, hroot, hstop⟩ := h
  rcases act_descend junk (m := m) (n := n) h2 hn hlt hstop with
    ⟨-, hact⟩ | ⟨hr1, hact⟩ | ⟨hr1, hact⟩
  · rw [hact]
    exact ⟨hi, hm, hroot⟩
  · rw [hact]
    exact ⟨hi, hm, hroot, by omega⟩
  · rw [hact]
    exact ⟨hi.wakeBelow h2 hn hm hlt hr1 (.inl hstop) hroot,
      ⟨hm.has, hm.calls, hm.reports, hm.woken, hm.sense, hm.le⟩, hroot, by omega⟩

theorem at_leave (h : At junk nthr i m (.leave state n)) :
    At junk nthr i m (act junk nthr m (.leave state n)).2 := by
  obtain ⟨hm, hroot⟩ := h
  refine ⟨hm.has, hm.calls, hm.reports, hm.woken, ?_, hroot⟩
  rw [hm.sense, not_sense]

theorem Inv.subscribe (hi : Inv nthr m) (hnew : i ∉ m.roster.members) :
    Inv nthr (subscribe i m).1 where
  counted := hi.counted.subscribe hnew
  absent t ht := hi.absent t (Roster.length_le_of_subscribe ht)
  untouched t ht := hi.untouched t (Roster.length_le_of_subscribe ht)
  reports_le := hi.reports_le
  tree := hi.tree
  told := hi.told
  woken_le := hi.woken_le
  asleep := hi.asleep

/-! ## Every run -/

/-- A step in which a thread changes only what is its own. -/
theorem At.other {p : Pc} (h : At junk nthr j m p) (hm : m.roster.Has state.vpid i) (hj : j ≠ i)
    (hroster : m'.roster = m.roster) (hreports : ∀ t, m.reports t ≤ m'.reports t)
    (hown : ∀ t, t ≠ state.vpid → m'.calls t = m.calls t ∧ m'.reports t = m.reports t ∧
      m'.woken t = m.woken t) : At junk nthr j m' p := by
  refine h.mono hreports (fun t ht => hroster ▸ ht) (fun hnew => hroster ▸ hnew) fun t ht => ?_
  refine hown t ?_
  rintro rfl
  exact hj (ht.unique hm)

theorem At.other_subscribe {p : Pc} (h : At junk nthr j m p) (hj : j ≠ i) :
    At junk nthr j (subscribe i m).1 p := by
  exact h.mono (fun t => le_rfl) (fun t ht => ht.subscribe i)
    (fun hnew => Roster.not_mem_subscribe hnew hj) fun t ht => ⟨rfl, rfl, rfl⟩

theorem At.calls {p : Pc} (h : At junk nthr i m p) :
    i ∉ m.roster.members ∨ ∃ t, m.roster.Has t i ∧ m.calls t = p.started := by
  cases p with
  | new => exact .inl h
  | idle => exact .inr ⟨_, Member.has h, Member.calls h⟩
  | quit => exact h.elim
  | climb | win | lose | champion | crown | descend | leave =>
    exact .inr ⟨_, h.1.has, h.1.calls⟩

/-- A thread has returned from no more calls than the champion has ended the climb in. -/
theorem At.le {p : Pc} (h : At junk nthr i m p) : p.returned ≤ m.reports 0 := by
  cases p with
  | new => exact Nat.zero_le _
  | idle => exact Member.le h
  | quit => exact h.elim
  | climb | win | lose | champion | crown | descend | leave => exact h.1.le

theorem init_inv : Inv nthr (init : Mem ι) where
  counted := ⟨List.nodup_nil, rfl⟩
  absent _ _ := rfl
  untouched _ _ := rfl
  reports_le _ := le_rfl
  tree _ _ _ := le_rfl
  told _ _ _ := rfl
  woken_le _ := le_rfl
  asleep _ _ _ _ := rfl

variable [Fintype ι]

theorem at_subscribe (hcard : Fintype.card ι < 2 ^ 32) (hi : Inv nthr m) :
    At junk nthr i (subscribe i m).1 (subscribe i m).2 := by
  have htid := hi.counted.tid_eq_length hcard
  have hcalls : m.calls m.roster.tid = 0 := hi.absent _ htid.ge
  have hreports : m.reports m.roster.tid = 0 := Nat.le_zero.mp (hcalls ▸ hi.reports_le _)
  exact ⟨hi.counted.has_subscribe hcard i, hcalls, hreports, fun _ => hi.untouched _ htid.ge, rfl,
    Nat.zero_le _⟩

theorem invariant (h2 : 2 ≤ Fintype.card ι) (hn : Fintype.card ι ≤ 2 ^ 31) :
    Threads.Invariant (Step (ι := ι) junk (Fintype.card ι)) (fun _ _ _ => True)
      (Inv (Fintype.card ι)) (At junk (Fintype.card ι)) where
  own {i m p m' p'} hstep _ hinv hat := by
    cases hstep with
    | subscribe => exact ⟨hinv.subscribe hat, at_subscribe (by omega) hinv⟩
    | call state n =>
      have hsize : size (Fintype.card ι) ≠ 1 := by
        have := (logUp_spec h2 hn).2.2.1
        unfold size
        omega
      rw [if_neg hsize]
      exact ⟨hinv.call (Member.has hat), at_call h2 hn hat⟩
    | act h =>
      cases p with
      | new | idle => simp [Pc.started, Pc.returned] at h
      | quit => exact hat.elim
      | climb state n r => exact climb_step h2 hn (hat.1.has.lt_card hinv.counted) hinv hat
      | win state n r => exact ⟨hinv, at_win hinv hat⟩
      | lose state n r =>
        have hlt := hat.1.has.lt_card hinv.counted
        simp only [act]
        split
        case isTrue => exact ⟨hinv, hat⟩
        case isFalse hflag =>
          exact ⟨hinv.wake hat hlt (not_not.mp hflag),
            at_wake h2 hn hinv hat hlt (not_not.mp hflag)⟩
      | champion state n r =>
        simp only [act]
        split
        case isTrue => exact ⟨hinv, hat⟩
        case isFalse hflag =>
          exact ⟨hinv.champion h2 hn hat (not_not.mp hflag), at_champion hat⟩
      | crown state n r => exact crown_step h2 hn (hat.1.has.lt_card hinv.counted) hinv hat
      | descend state n r => exact descend_step h2 hn (hat.1.has.lt_card hinv.counted) hinv hat
      | leave state n => exact ⟨hinv, at_leave hat⟩
  other {i m p m' p'} hstep _ hinv hat j q hj hatj := by
    cases hstep with
    | subscribe => exact hatj.other_subscribe hj
    | call state n =>
      exact hatj.other (Member.has hat) hj rfl (fun t => le_rfl) fun t ht =>
        ⟨Function.update_of_ne ht .., rfl, rfl⟩
    | act h =>
      cases p with
      | new | idle => simp [Pc.started, Pc.returned] at h
      | quit => exact hat.elim
      | climb state n r =>
        have hm := hat.1
        rcases act_climb junk (m := m) (n := n) h2 hn (hm.has.lt_card hinv.counted)
          hat.2.1 hat.2.2.1 with ⟨-, -, hact⟩ | ⟨-, -, hact⟩ | ⟨-, -, hact⟩ | ⟨-, -, hact⟩
        · exact hact ▸ hatj
        · exact hact ▸ hatj
        · exact hact ▸ hatj
        · rw [hact]
          exact hatj.other hm.has hj rfl (reports_le_report (m.store _ _) _) fun t ht =>
            ⟨rfl, Function.update_of_ne ht .., rfl⟩
      | win state n r => exact hatj
      | lose state n r =>
        simp only [act]
        split
        case isTrue => exact hatj
        case isFalse =>
          exact hatj.other hat.1.has hj rfl (fun t => le_rfl) fun t ht =>
            ⟨rfl, rfl, Function.update_of_ne ht ..⟩
      | champion state n r =>
        simp only [act]
        split
        case isTrue => exact hatj
        case isFalse =>
          exact hatj.other hat.1.has hj rfl (reports_le_report m _) fun t ht =>
            ⟨rfl, Function.update_of_ne ht .., rfl⟩
      | crown state n r =>
        exact hatj.other hat.1.has hj rfl (fun t => le_rfl) fun t ht => ⟨rfl, rfl, rfl⟩
      | descend state n r =>
        rcases act_descend junk (m := m) (n := n) h2 hn
          (hat.1.has.lt_card hinv.counted) hat.2.2 with ⟨-, hact⟩ | ⟨-, hact⟩ | ⟨-, hact⟩
        · exact hact ▸ hatj
        · exact hact ▸ hatj
        · rw [hact]
          exact hatj.other hat.1.has hj rfl (fun t => le_rfl) fun t ht => ⟨rfl, rfl, rfl⟩
      | leave state n => exact hatj

/-- The walk of a thread has not gone wrong. It stands in a round that there is, climbs without
reaching the dropout, stops where it is the champion or a loser, and finds neither of them on its
way down. -/
def Pc.Sound (junk : Nat → Nat → Round) (nthr : Nat) : Pc → Prop
  | .new | .idle _ _ | .leave _ _ => True
  | .quit _ _ => False
  | .climb state _ r => state.vpid < nthr ∧ r < size nthr ∧
      role junk nthr state.vpid r ≠ .dropout ∧ role junk nthr state.vpid r ≠ .other
  | .win state _ r => state.vpid < nthr ∧ r < size nthr ∧ role junk nthr state.vpid r = .winner
  | .lose state _ r => state.vpid < nthr ∧ Stops junk nthr state.vpid r ∧
      role junk nthr state.vpid r = .loser
  | .champion state _ r | .crown state _ r => state.vpid < nthr ∧ Stops junk nthr state.vpid r ∧
      role junk nthr state.vpid r = .champion
  | .descend state _ r => state.vpid < nthr ∧ r < size nthr ∧
      role junk nthr state.vpid r ≠ .champion ∧ role junk nthr state.vpid r ≠ .loser ∧
        role junk nthr state.vpid r ≠ .other

omit [Fintype ι] in
theorem At.sound {p : Pc} (h2 : 2 ≤ nthr) (hn : nthr ≤ 2 ^ 31)
    (hlt : ∀ t, m.roster.Has t i → t < nthr) (h : At junk nthr i m p) : p.Sound junk nthr := by
  have hbelow : ∀ {t r}, t < nthr → 1 ≤ r → r < stop nthr t →
      role junk nthr t r = .winner ∨ role junk nthr t r = .bye :=
    fun ht hr hstop => (stops _ h2 hn ht).before _ hr hstop
  have hsize : ∀ {t r}, t < nthr → r ≤ stop nthr t → r < size nthr :=
    fun ht hr => hr.trans_lt (stops junk h2 hn ht).lt_size
  cases p with
  | new | idle | leave => trivial
  | quit => exact h
  | climb state n r =>
    obtain ⟨hm, hr1, hstop, -⟩ := h
    have ht := hlt _ hm.has
    refine ⟨ht, hsize ht hstop, ?_⟩
    rcases hstop.lt_or_eq with hstop | rfl
    · rcases hbelow ht hr1 hstop with hrole | hrole <;> rw [hrole] <;> decide
    · obtain ⟨o, -, -, -, hrole⟩ := (stops junk h2 hn ht).matching
      rcases hrole with hrole | hrole <;> rw [hrole.1] <;> decide
  | win state n r =>
    obtain ⟨hm, hr1, hstop, hrole, -⟩ := h
    have ht := hlt _ hm.has
    exact ⟨ht, hsize ht hstop.le, hrole⟩
  | lose state n r =>
    obtain ⟨hm, rfl, h0⟩ := h
    have ht := hlt _ hm.has
    exact ⟨ht, stops _ h2 hn ht, role_stop _ h2 hn ht h0⟩
  | champion state n r =>
    obtain ⟨hm, rfl, h0, -⟩ := h
    have ht := hlt _ hm.has
    exact ⟨ht, stops _ h2 hn ht, h0 ▸ role_champion _ h2 hn⟩
  | crown state n r =>
    obtain ⟨hm, -, rfl, h0⟩ := h
    have ht := hlt _ hm.has
    exact ⟨ht, stops _ h2 hn ht, h0 ▸ role_champion _ h2 hn⟩
  | descend state n r =>
    obtain ⟨hm, -, hstop⟩ := h
    have ht := hlt _ hm.has
    refine ⟨ht, hsize ht hstop.le, ?_⟩
    rcases Nat.eq_zero_or_pos r with rfl | hr1
    · rw [show role junk nthr state.vpid 0 = .dropout from if_pos rfl]
      decide
    · rcases hbelow ht hr1 hstop with hrole | hrole <;> rw [hrole] <;> decide

/-- With at least two threads, no thread has returned from more calls than any other has started,
and no walk has gone wrong. -/
theorem separates_and_sound [DecidableEq ι] (h2 : 2 ≤ Fintype.card ι)
    (hn : Fintype.card ι ≤ 2 ^ 31) {s : Threads.System (Mem ι) Pc ι}
    (hr : Threads.System.Reachable (Step junk (Fintype.card ι)) (fun _ _ _ => True)
      ⟨init, fun _ => .new⟩ s) :
    (∀ i j, (s.pc i).returned ≤ (s.pc j).started) ∧
      ∀ i, (s.pc i).Sound junk (Fintype.card ι) := by
  obtain ⟨hinv, hat⟩ := (invariant h2 hn).reachable hr (fun _ => trivial) init_inv
    fun i => (List.not_mem_nil : i ∉ [])
  refine ⟨fun i j => ?_, fun i => (hat i).2.sound h2 hn fun t ht => ht.lt_card hinv.counted⟩
  have hall : ∀ t < Fintype.card ι, (s.pc i).returned ≤ s.mem.calls t := fun t ht =>
    (hat i).2.le.trans ((hinv.root_le h2 hn ht).trans (hinv.reports_le t))
  exact hinv.counted.le_of_forall hall hinv.absent (hat j).2.calls

/-- No thread returns from a call before every other one has started the call with the same number.
Every thread stops its climb in exactly one round, as the champion or as a loser whose opponent has
the matching role, and no walk leaves the rounds or takes a branch that is not to be reached. -/
theorem tournament_separates [DecidableEq ι] (junk : Nat → Nat → Round)
    (hn : Fintype.card ι ≤ 2 ^ 31) {s : Threads.System (Mem ι) Pc ι}
    (hr : Threads.System.Reachable (Step junk (Fintype.card ι)) (fun _ _ _ => True)
      ⟨init, fun _ => .new⟩ s) :
    (∀ i j, (s.pc i).returned ≤ (s.pc j).started) ∧
      (2 ≤ Fintype.card ι → (∀ t < Fintype.card ι, ∃! r, Stops junk (Fintype.card ι) t r) ∧
        ∀ i, (s.pc i).Sound junk (Fintype.card ι)) := by
  by_cases h2 : 2 ≤ Fintype.card ι
  case pos =>
    obtain ⟨hsep, hsound⟩ := separates_and_sound h2 hn hr
    exact ⟨hsep, fun _ => ⟨fun t ht => ⟨_, stops _ h2 hn ht, fun r hstops =>
      hstops.unique (stops _ h2 hn ht)⟩, hsound⟩⟩
  case neg =>
    have hsub : Subsingleton ι := Fintype.card_le_one_iff_subsingleton.mp (by omega)
    refine ⟨fun i j => ?_, fun h => absurd h h2⟩
    rw [Subsingleton.elim i j]
    cases s.pc j <;> simp [Pc.returned, Pc.started]

omit [Fintype ι] in
/-- A thread makes `n` accesses in a row. -/
theorem reachable_acts [DecidableEq ι] {s₀ s : Threads.System (Mem ι) Pc ι}
    (hr : Threads.System.Reachable (Step junk nthr) (fun _ _ _ => True) s₀ s) (i : ι) (n : Nat) :
    Threads.System.Reachable (Step junk nthr) (fun _ _ _ => True) s₀
      (s.acts (fun _ => act junk nthr) i n) := by
  refine hr.acts i n (fun k _ m p _ _ => ?_) fun _ _ _ => trivial
  cases p with
  | new | idle => exact .inl rfl
  | quit | climb | win | lose | champion | crown | descend | leave => exact .inr (.act rfl)

/-- A round that holds zeros before `ck_barrier_tournament_init`. -/
def zeroed : Nat → Nat → Round := fun _ _ => ⟨.bye, (0, 0)⟩

/-- The champion has returned from its second call, and the loser below it is still there. -/
theorem tournament_separates_two :
    ∃ s : Threads.System (Mem Bool) Pc Bool,
      Threads.System.Reachable (Step zeroed 2) (fun _ _ _ => True) ⟨init, fun _ => .new⟩ s ∧
        (s.pc false).returned = 2 ∧ (s.pc true).returned = 1 ∧ 2 ≤ (s.pc true).started ∧
          (∃! r, Stops zeroed 2 0 r) ∧ (s.pc true).Sound zeroed 2 := by
  have h₁ := (Relation.ReflTransGen.refl
    (r := Threads.System.Step (Step zeroed 2) (fun _ _ _ => True))
    (a := (⟨init, fun _ => .new⟩ : Threads.System (Mem Bool) Pc Bool))).tail
      (.run false (.subscribe _) fun _ => trivial)
  have h₂ := h₁.tail (.run true (.subscribe _) fun _ => trivial)
  have h₃ := reachable_acts (h₂.tail (.run true (.call _ ⟨~~~0, 1⟩ 0) fun _ => trivial)) true 1
  have h₄ := reachable_acts (h₃.tail (.run false (.call _ ⟨~~~0, 0⟩ 0) fun _ => trivial)) false 5
  have h₅ := reachable_acts h₄ true 4
  -- the sense of the second episode is the other one
  have h₆ := reachable_acts (h₅.tail (.run true (.call _ ⟨0, 1⟩ 1) fun _ => trivial)) true 1
  have h₇ := reachable_acts (h₆.tail (.run false (.call _ ⟨0, 0⟩ 1) fun _ => trivial)) false 5
  have hsep : ∀ s : Threads.System (Mem Bool) Pc Bool,
      Threads.System.Reachable (Step zeroed 2) (fun _ _ _ => True) ⟨init, fun _ => .new⟩ s →
      (s.pc false).returned = 2 → 2 ≤ (s.pc true).started ∧ (∃! r, Stops zeroed 2 0 r) ∧
        (s.pc true).Sound zeroed 2 := by
    intro s hr h
    obtain ⟨hsep, hwalk⟩ := tournament_separates (ι := Bool) zeroed (by decide) hr
    exact ⟨h ▸ hsep false true, (hwalk (by decide)).1 0 (by decide), (hwalk (by decide)).2 true⟩
  have hsecond := hsep _ h₇
  exact ⟨_, h₇, by decide +kernel, by decide +kernel, hsecond (by decide +kernel)⟩

omit [Fintype ι] in
/-- Where there is one round only, a thread returns before another one has subscribed. -/
theorem returns_alone (junk : Nat → Nat → Round) [DecidableEq ι] (hsize : size nthr = 1)
    (hj : j ≠ i) :
    ∃ s : Threads.System (Mem ι) Pc ι,
      Threads.System.Reachable (Step junk nthr) (fun _ _ _ => True) ⟨init, fun _ => .new⟩ s ∧
        (s.pc i).returned = 1 ∧ (s.pc j).started = 0 := by
  let p₁ : Pc := .idle ⟨~~~0, 0⟩ 0
  let p₂ : Pc := .quit ⟨~~~0, 0⟩ 0
  have hquit : (if size nthr = 1 then p₂ else .climb ⟨~~~0, 0⟩ 0 1) = p₂ := if_pos hsize
  let s₁ : Threads.System (Mem ι) Pc ι :=
    ⟨(subscribe i init).1, Function.update (fun _ => .new) i p₁⟩
  let s₂ : Threads.System (Mem ι) Pc ι := ⟨s₁.mem.call 0, Function.update s₁.pc i p₂⟩
  refine ⟨⟨s₂.mem, Function.update s₂.pc i (act junk nthr s₂.mem p₂).2⟩, ?_, ?_, ?_⟩
  · refine .tail (b := s₂) (.tail (b := s₁) (.tail .refl (.run i (.subscribe _) fun _ => trivial))
      (.run i ?_ fun _ => trivial)) (.run i ?_ fun _ => trivial)
    · simp only [s₁, Function.update_self]
      exact hquit ▸ .call _ _ _
    · simp only [s₂, Function.update_self]
      exact .act rfl
  · simp [act, p₂, Pc.returned]
  · simp [s₁, s₂, hj, Pc.started]

/-- With more threads the power of two does not fit into a word, and nobody waits. -/
theorem tournament_unseparated :
    ¬ ∀ (s : Threads.System (Mem (Fin (2 ^ 31 + 1))) Pc (Fin (2 ^ 31 + 1))),
      Threads.System.Reachable (Step zeroed (2 ^ 31 + 1)) (fun _ _ _ => True)
        ⟨init, fun _ => .new⟩ s →
      ∀ i j, (s.pc i).returned ≤ (s.pc j).started := by
  intro h
  have hne : (1 : Fin (2 ^ 31 + 1)) ≠ 0 := by decide
  have hsize : size (2 ^ 31 + 1) = 1 :=
    congrArg (· + 1) (logUp_large (by norm_num) (by norm_num))
  obtain ⟨s, hr, hreturned, hstarted⟩ := returns_alone zeroed hsize hne
  have := h s hr 0 1
  omega

end ConcurrencyKit.Barrier.Tournament
