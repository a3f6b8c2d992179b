import ConcurrencyKit.Barrier.Mcs.Model

/-!
# No thread of an MCS tree barrier is ahead of another one

Up the tree of arrivals the threads have told their parents in fewer and fewer calls, so that the
root has done so in as many calls as all threads have. A thread is only woken in a call in which the
root has. The flag of a child is armed again before its parent tells anybody, so that a child finds
it armed in the next call; a thread that is not woken in a call yet has the sense of the call before
it, whoever stores to `parentsense`.

The index of a child may wrap around in a large barrier. Then a thread waits for a child that does
not exist, or wakes one that is not its own, and neither harms the separation.
-/

namespace ConcurrencyKit.Barrier.Mcs

/-! ## The trees -/

variable {nthr : Nat}

theorem parent_eq {c : Nat} (hc : 0 < c) :
    parent c = .childnotready ((c - 1) / 4) ((c - 1) % 4) := by
  rw [parent, if_neg (by omega), Nat.shiftRight_eq_div_pow]
  have hand : (c - 1) &&& 3 = (c - 1) % 4 := Nat.and_two_pow_sub_one_eq_mod (c - 1) 2
  rw [hand]

/-- A child that exists is waited for. -/
theorem havechild_eq {c : Nat} (hc : 0 < c) (hlt : c < nthr) (h32 : nthr < 2 ^ 32) :
    havechild nthr ((c - 1) / 4) ((c - 1) % 4) = ~~~0 := by
  rw [havechild, if_pos]
  rw [Nat.shiftLeft_eq]
  omega

theorem parent_ne {c c' : Nat} (hc : 0 < c') (hne : c ≠ c') : parent c ≠ parent c' := by
  rw [parent_eq hc]
  by_cases h0 : c = 0
  · subst h0
    simp [parent]
  · rw [parent_eq (by omega)]
    simp only [ne_eq, Loc.childnotready.injEq]
    omega

theorem parent_ne_parentsense (c t : Nat) : parent c ≠ .parentsense t := by
  unfold parent
  split <;> simp

theorem children_ne (t c : Nat) (i j : Nat) : children nthr t c ≠ .childnotready i j := by
  simp only [children]
  split <;> simp

/-! ## The invariant -/

variable {ι : Type}

/-- The flags of the children and of the threads that wait to be woken. -/
structure Inv (nthr : Nat) (m : Mem ι) : Prop where
  counted : m.roster.Counted
  absent : ∀ t, m.roster.members.length ≤ t → m.calls t = 0
  untouched : ∀ t, m.roster.members.length ≤ t → m.woken t = 0 ∧ ∀ j, m.rearms t j = 0
  reports_le : ∀ t, m.reports t ≤ m.calls t
  tree : ∀ c, 0 < c → c < nthr → m.reports ((c - 1) / 4) ≤ m.reports c
  rearmed : ∀ t j, j < 4 → m.reports t ≤ m.rearms t j
  armed : ∀ c, 0 < c → c < nthr → m.rearms ((c - 1) / 4) ((c - 1) % 4) ≤ m.reports c ∧
    m.reports c ≤ m.rearms ((c - 1) / 4) ((c - 1) % 4) + 1 ∧
      m.word (parent c) = if m.reports c = m.rearms ((c - 1) / 4) ((c - 1) % 4) then ~~~0 else 0
  woken_le : ∀ t, m.woken t ≤ m.reports 0
  asleep : ∀ t, m.woken t = m.reports 0 → m.word (.parentsense t) = sense (m.reports 0 + 1)

/-- A thread with a number that has returned from `n` calls and started `c` of them. It has told its
parent in `r` of them, has been woken in `w`, and has armed the flag of child `j` in `a j`. -/
structure Member (i : ι) (m : Mem ι) (state : State) (n c r w : Nat) (a : Nat → Nat) : Prop where
  has : m.roster.Has state.vpid i
  calls : m.calls state.vpid = c
  reports : m.reports state.vpid = r
  woken : state.vpid ≠ 0 → m.woken state.vpid = w
  rearms : ∀ j < 4, m.rearms state.vpid j = a j
  sense : state.sense = sense n
  le : n ≤ m.reports 0

/-- The child `j` of a thread has told it in the call after `n`, if there is one. -/
def Ready (nthr : Nat) (m : Mem ι) (t n j : Nat) : Prop :=
  4 * t + j + 1 < nthr → n < m.reports (4 * t + j + 1)

/-- What the program counter of a thread says about the memory. -/
def At (nthr : Nat) (i : ι) (m : Mem ι) : Pc → Prop
  | .new => i ∉ m.roster.members
  | .idle state n => Member i m state n n n n fun _ => n
  | .check state n j =>
    Member i m state n (n + 1) n n (fun _ => n) ∧ j < 4 ∧ ∀ k < j, Ready nthr m state.vpid n k
  | .reinit state n j =>
    Member i m state n (n + 1) n n (fun k => if k < j then n + 1 else n) ∧ j < 4 ∧
      ∀ k < 4, Ready nthr m state.vpid n k
  | .report state n =>
    Member i m state n (n + 1) n n (fun _ => n + 1) ∧ ∀ k < 4, Ready nthr m state.vpid n k
  | .wait state n => Member i m state n (n + 1) (n + 1) n (fun _ => n + 1) ∧ state.vpid ≠ 0
  | .wake state n _ =>
    Member i m state n (n + 1) (n + 1) (n + 1) (fun _ => n + 1) ∧ n < m.reports 0

/-! ## Steps -/

variable {i j : ι} {m m' : Mem ι} {state : State} {n : Nat}

/-- The root has told of no more calls than any thread has. -/
theorem Inv.root_le (hi : Inv nthr m) {t : Nat} (ht : t < nthr) : m.reports 0 ≤ m.reports t := by
  induction t using Nat.strong_induction_on with
  | _ t ih =>
    by_cases h0 : t = 0
    · rw [h0]
    · exact (ih ((t - 1) / 4) (by omega) (by omega)).trans (hi.tree t (by omega) ht)

/-- What a thread knows stays true when others go on. -/
theorem At.mono {p : Pc} (h : At nthr j m p) (hreports : ∀ t, m.reports t ≤ m'.reports t)
    (hhas : ∀ t, m.roster.Has t j → m'.roster.Has t j)
    (hnew : j ∉ m.roster.members → j ∉ m'.roster.members)
    (hown : ∀ t, m.roster.Has t j → m'.calls t = m.calls t ∧ m'.reports t = m.reports t ∧
      m'.woken t = m.woken t ∧ m'.rearms t = m.rearms t) : At nthr j m' p := by
  have hmember : ∀ {state n c r w a}, Member j m state n c r w a → Member j m' state n c r w a := by
    intro state n c r w a hm
    obtain ⟨hcalls, hreports', hwoken, hrearms⟩ := hown _ hm.has
    exact ⟨hhas _ hm.has, hcalls.trans hm.calls, hreports'.trans hm.reports,
      fun h0 => hwoken.trans (hm.woken h0), fun k hk => hrearms ▸ hm.rearms k hk, hm.sense,
      hm.le.trans (hreports 0)⟩
  have hready : ∀ {t n k}, Ready nthr m t n k → Ready nthr m' t n k :=
    fun h hlt => (h hlt).trans_le (hreports _)
  cases p with
  | new => exact hnew h
  | idle state n => exact hmember h
  | check state n k => exact ⟨hmember h.1, h.2.1, fun l hl => hready (h.2.2 l hl)⟩
  | reinit state n k => exact ⟨hmember h.1, h.2.1, fun l hl => hready (h.2.2 l hl)⟩
  | report state n => exact ⟨hmember h.1, fun l hl => hready (h.2 l hl)⟩
  | wait state n => exact ⟨hmember h.1, h.2⟩
  | wake state n c => exact ⟨hmember h.1, h.2.trans_le (hreports 0)⟩

theorem Inv.call (hi : Inv nthr m) (hm : m.roster.Has state.vpid i) :
    Inv nthr (m.call state.vpid) where
  counted := hi.counted
  absent t ht := by
    have hne : t ≠ state.vpid := ne_of_gt (hm.lt.trans_le ht)
    simp only [Mem.call, Function.update_of_ne hne]
    exact hi.absent t ht
  untouched := hi.untouched
  reports_le t := (hi.reports_le t).trans (le_update_succ m.calls state.vpid t)
  tree := hi.tree
  rearmed := hi.rearmed
  armed := hi.armed
  woken_le := hi.woken_le
  asleep := hi.asleep

theorem at_call (h : At nthr i m (.idle state n)) :
    At nthr i (m.call state.vpid) (.check state n 0) := by
  refine ⟨⟨h.has, ?_, h.reports, h.woken, h.rearms, h.sense, h.le⟩, by omega, by simp⟩
  simp only [Mem.call, Function.update_self, h.calls]

/-- A flag that is clear has been cleared by the child since it has been armed. -/
theorem ready_of_clear (hi : Inv nthr m) {a : Nat → Nat} {c r w k : Nat}
    (hm : Member i m state n c r w a) (hk : k < 4) (ha : a k = n)
    (hclear : m.word (.childnotready state.vpid k) = 0) : Ready nthr m state.vpid n k := by
  intro hlt
  obtain ⟨hle, -, hword⟩ := hi.armed _ (by omega) hlt
  have hdiv : (4 * state.vpid + k + 1 - 1) / 4 = state.vpid := by omega
  have hmod : (4 * state.vpid + k + 1 - 1) % 4 = k := by omega
  rw [parent_eq (by omega), hdiv, hmod, hclear, hm.rearms k hk, ha] at hword
  rw [hdiv, hmod, hm.rearms k hk, ha] at hle
  refine lt_of_le_of_ne hle fun heq => ?_
  rw [if_pos heq.symm] at hword
  exact absurd hword (by decide)

theorem at_check (hi : Inv nthr m) {k : Nat} (h : At nthr i m (.check state n k)) :
    At nthr i m (act nthr m (.check state n k)).2 := by
  obtain ⟨hm, hk, hready⟩ := h
  simp only [act]
  split
  case isTrue => exact ⟨hm, by omega, by simp⟩
  case isFalse hclear =>
    have hlast := ready_of_clear hi hm hk rfl (not_not.mp hclear)
    have hall : ∀ l < k + 1, Ready nthr m state.vpid n l := by
      intro l hl
      rcases Nat.lt_succ_iff_lt_or_eq.mp hl with hl | rfl
      · exact hready l hl
      · exact hlast
    split
    case isTrue h3 => exact ⟨hm, by omega, hall⟩
    case isFalse h3 =>
      refine ⟨⟨hm.has, hm.calls, hm.reports, hm.woken, ?_, hm.sense, hm.le⟩, by omega, ?_⟩
      · intro l hl
        rw [if_neg (Nat.not_lt_zero l)]
        exact hm.rearms l hl
      · exact fun l hl => hall l (by omega)

theorem rearms_rearm (m : Mem ι) (t k t' k' : Nat) :
    (m.rearm nthr t k).rearms t' k' =
      if t' = t ∧ k' = k then m.rearms t k + 1 else m.rearms t' k' := by
  simp only [Mem.rearm, Mem.store, Function.update_apply, ite_and]
  split
  case isTrue ht => rw [Function.update_apply, ht]
  case isFalse => rfl

theorem reports_rearm (m : Mem ι) (t k t' : Nat) :
    (m.rearm nthr t k).reports t' = m.reports t' := rfl

theorem Inv.rearm (h32 : nthr < 2 ^ 32) (hi : Inv nthr m) {k : Nat}
    (h : At nthr i m (.reinit state n k)) : Inv nthr (m.rearm nthr state.vpid k) := by
  obtain ⟨hm, hk, hready⟩ := h
  have hown : m.rearms state.vpid k = n := by rw [hm.rearms k hk, if_neg (lt_irrefl k)]
  refine ⟨hi.counted, hi.absent, fun t ht => ⟨(hi.untouched t ht).1, fun l => ?_⟩, hi.reports_le,
    hi.tree, fun t l hl => ?_, fun c hc hlt => ?_, hi.woken_le, fun t ht => ?_⟩
  · have hne : t ≠ state.vpid := ne_of_gt (hm.has.lt.trans_le ht)
    rw [rearms_rearm, if_neg fun hand => hne hand.1]
    exact (hi.untouched t ht).2 l
  · rw [rearms_rearm]
    split
    case isTrue heq =>
      rw [heq.1, hown]
      exact hm.reports.le.trans (Nat.le_succ n)
    case isFalse => exact hi.rearmed t l hl
  · obtain ⟨hle, hge, hword⟩ := hi.armed c hc hlt
    rw [rearms_rearm]
    by_cases heq : (c - 1) / 4 = state.vpid ∧ (c - 1) % 4 = k
    case pos =>
      obtain ⟨hdiv, hmod⟩ := heq
      rw [hdiv, hmod, hown] at hge
      have hchild : 4 * state.vpid + k + 1 = c := by omega
      have hlater := hready k hk (hchild ▸ hlt)
      rw [hchild] at hlater
      have hreports : m.reports c = n + 1 := by omega
      rw [if_pos ⟨hdiv, hmod⟩, hown]
      refine ⟨hreports.ge, hreports.le.trans (Nat.le_succ _), ?_⟩
      rw [reports_rearm, if_pos hreports, parent_eq hc, hdiv, hmod]
      refine (Function.update_self ..).trans ?_
      rw [← hdiv, ← hmod]
      exact havechild_eq hc hlt h32
    case neg =>
      rw [if_neg heq, reports_rearm]
      refine ⟨hle, hge, ?_⟩
      rw [← hword]
      refine Function.update_of_ne ?_ ..
      rw [parent_eq hc]
      simpa using heq
  · have hne : Loc.parentsense t ≠ .childnotready state.vpid k := by simp
    rw [reports_rearm, ← hi.asleep t ht]
    simp only [Mem.rearm, Mem.store, Function.update_of_ne hne]

theorem at_rearm {k : Nat} (h : At nthr i m (.reinit state n k)) :
    At nthr i (m.rearm nthr state.vpid k) (act nthr m (.reinit state n k)).2 := by
  obtain ⟨hm, hk, hready⟩ := h
  have hrearms : ∀ l < 4, (m.rearm nthr state.vpid k).rearms state.vpid l =
      if l < k + 1 then n + 1 else n := by
    intro l hl
    rw [rearms_rearm]
    by_cases heq : l = k
    · subst heq
      rw [if_pos ⟨rfl, rfl⟩, if_pos (Nat.lt_succ_self l), hm.rearms l hl, if_neg (lt_irrefl l)]
    · rw [if_neg fun hand => heq hand.2, hm.rearms l hl]
      congr 1
      simp only [eq_iff_iff]
      omega
  simp only [act]
  split
  case isTrue h3 =>
    exact ⟨⟨hm.has, hm.calls, hm.reports, hm.woken, hrearms, hm.sense, hm.le⟩, by omega, hready⟩
  case isFalse h3 =>
    refine ⟨⟨hm.has, hm.calls, hm.reports, hm.woken, fun l hl => ?_, hm.sense, hm.le⟩, hready⟩
    rw [hrearms l hl, if_pos (by omega)]

theorem reports_report (m : Mem ι) (t t' : Nat) :
    (m.report t).reports t' = if t' = t then m.reports t + 1 else m.reports t' :=
  Function.update_apply ..

theorem reports_le_report (m : Mem ι) (t t' : Nat) : m.reports t' ≤ (m.report t).reports t' :=
  le_update_succ m.reports t t'

theorem Inv.report (hi : Inv nthr m) (h : At nthr i m (.report state n))
    (hlt : state.vpid < nthr) : Inv nthr (m.report state.vpid) := by
  obtain ⟨hm, hready⟩ := h
  have hself : (m.report state.vpid).reports state.vpid = n + 1 := by
    rw [reports_report, if_pos rfl, hm.reports]
  have hother : ∀ t, t ≠ state.vpid → (m.report state.vpid).reports t = m.reports t := by
    intro t ht
    rw [reports_report, if_neg ht]
  refine ⟨hi.counted, hi.absent, hi.untouched, fun t => ?_, fun c hc hcn => ?_, fun t j hj => ?_,
    fun c hc hcn => ?_, fun t => (hi.woken_le t).trans (reports_le_report m _ 0), fun t ht => ?_⟩
  · by_cases ht : t = state.vpid
    · rw [ht, hself]
      exact hm.calls.ge
    · rw [hother t ht]
      exact hi.reports_le t
  · by_cases hp : (c - 1) / 4 = state.vpid
    · -- a child of the thread has told it in this call
      have hchild : 4 * state.vpid + (c - 1) % 4 + 1 = c := by omega
      have hlater := hready ((c - 1) % 4) (by omega) (by omega)
      rw [hchild] at hlater
      rw [hp, hself, hother c (by omega)]
      exact hlater
    · rw [hother _ hp]
      exact (hi.tree c hc hcn).trans (reports_le_report m _ c)
  · by_cases ht : t = state.vpid
    · rw [ht, hself]
      exact (hm.rearms j hj).ge
    · rw [hother t ht]
      exact hi.rearmed t j hj
  · obtain ⟨hle, hge, hword⟩ := hi.armed c hc hcn
    by_cases ht : c = state.vpid
    case pos =>
      -- the parent has armed the flag in every call that the root has told of
      have hroot := hi.root_le (t := (c - 1) / 4) (by omega)
      have harmed := hi.rearmed ((c - 1) / 4) ((c - 1) % 4) (by omega)
      have hn := hm.le
      have hreports : m.reports c = n := ht ▸ hm.reports
      have hnew : (m.report state.vpid).reports c = n + 1 := ht ▸ hself
      rw [hnew]
      refine ⟨by simp only [Mem.report, Mem.store]; omega,
        by simp only [Mem.report, Mem.store]; omega, ?_⟩
      rw [if_neg (by simp only [Mem.report, Mem.store]; omega), ht]
      exact Function.update_self ..
    case neg =>
      rw [hother c ht]
      refine ⟨hle, hge, ?_⟩
      rw [← show (m.report state.vpid).word (parent c) = m.word (parent c) from
        Function.update_of_ne (Ne.symm (parent_ne hc (Ne.symm ht))) ..] at hword
      exact hword
  · by_cases h0 : state.vpid = 0
    · -- nobody has been woken in a call that the root has not told of before
      have hle := hi.woken_le t
      have hreports := h0 ▸ hm.reports
      rw [h0] at ht hself
      rw [hself] at ht
      have hwoken : (m.report 0).woken t = m.woken t := rfl
      omega
    · rw [hother 0 (Ne.symm h0)] at ht ⊢
      refine (Function.update_of_ne (Ne.symm (parent_ne_parentsense _ t)) ..).trans ?_
      exact hi.asleep t ht

theorem at_report (h : At nthr i m (.report state n)) :
    At nthr i (m.report state.vpid) (act nthr m (.report state n)).2 := by
  obtain ⟨hm, -⟩ := h
  have hself : (m.report state.vpid).reports state.vpid = n + 1 := by
    rw [reports_report, if_pos rfl, hm.reports]
  have hle : n ≤ (m.report state.vpid).reports 0 := hm.le.trans (reports_le_report m _ 0)
  simp only [act]
  split
  case isTrue h0 =>
    exact ⟨⟨hm.has, hm.calls, hself, hm.woken, hm.rearms, hm.sense, hle⟩, h0⟩
  case isFalse h0 =>
    refine ⟨⟨hm.has, hm.calls, hself, fun hne => absurd hne h0, hm.rearms, hm.sense, hle⟩, ?_⟩
    rw [not_not.mp h0] at hself ⊢
    rw [hself]
    exact Nat.lt_succ_self n

/-- A thread whose `parentsense` has the sense of the call is woken in it. -/
theorem lt_of_sense (hi : Inv nthr m) (h : At nthr i m (.wait state n))
    (hflag : m.word (.parentsense state.vpid) = state.sense) : n < m.reports 0 := by
  obtain ⟨hm, h0⟩ := h
  refine lt_of_le_of_ne hm.le fun heq => ?_
  have hasleep := hi.asleep state.vpid ((hm.woken h0).trans heq)
  rw [hflag, hm.sense, ← heq, sense_eq_iff] at hasleep
  omega

theorem Inv.wake (hi : Inv nthr m) (h : At nthr i m (.wait state n))
    (hflag : m.word (.parentsense state.vpid) = state.sense) : Inv nthr (m.wake state.vpid) := by
  have hlt := lt_of_sense hi h hflag
  obtain ⟨hm, h0⟩ := h
  have hwoken := hm.woken h0
  refine ⟨hi.counted, hi.absent, fun t ht => ⟨?_, (hi.untouched t ht).2⟩, hi.reports_le, hi.tree,
    hi.rearmed, hi.armed, fun t => ?_, fun t ht => ?_⟩
  · have hne : t ≠ state.vpid := ne_of_gt (hm.has.lt.trans_le ht)
    exact (Function.update_of_ne hne ..).trans (hi.untouched t ht).1
  · simp only [Mem.wake]
    by_cases heq : t = state.vpid
    · subst heq
      rw [Function.update_self, hwoken]
      exact hlt
    · rw [Function.update_of_ne heq]
      exact hi.woken_le t
  · simp only [Mem.wake] at ht ⊢
    by_cases heq : t = state.vpid
    · subst heq
      rw [Function.update_self, hwoken] at ht
      rw [hflag, hm.sense, ← ht, sense_eq_iff]
      omega
    · rw [Function.update_of_ne heq] at ht
      exact hi.asleep t ht

theorem at_wake (hi : Inv nthr m) (h : At nthr i m (.wait state n))
    (hflag : m.word (.parentsense state.vpid) = state.sense) :
    At nthr i (m.wake state.vpid) (.wake state n 0) := by
  have hlt := lt_of_sense hi h hflag
  obtain ⟨hm, h0⟩ := h
  refine ⟨⟨hm.has, hm.calls, hm.reports, fun _ => ?_, hm.rearms, hm.sense, hm.le⟩, hlt⟩
  simp only [Mem.wake, Function.update_self, hm.woken h0]

theorem Inv.wakeChild (hi : Inv nthr m) {c : Nat} (h : At nthr i m (.wake state n c))
    (hlt : state.vpid < nthr) :
    Inv nthr (m.store (children nthr state.vpid c) state.sense) := by
  obtain ⟨hm, hn⟩ := h
  -- the root is in the same call
  have hroot := hi.root_le hlt
  rw [hm.reports] at hroot
  refine ⟨hi.counted, hi.absent, hi.untouched, hi.reports_le, hi.tree, hi.rearmed,
    fun c' hc' hcn => ?_,
    hi.woken_le, fun t ht => ?_⟩
  · obtain ⟨hle, hge, hword⟩ := hi.armed c' hc' hcn
    refine ⟨hle, hge, ?_⟩
    rw [parent_eq hc'] at hword ⊢
    exact (Function.update_of_ne (Ne.symm (children_ne _ _ _ _)) ..).trans hword
  · by_cases heq : Loc.parentsense t = children nthr state.vpid c
    · simp only [Mem.store, heq, Function.update_self, hm.sense]
      rw [sense_eq_iff]
      omega
    · exact (Function.update_of_ne heq ..).trans (hi.asleep t ht)

theorem at_wakeChild {c : Nat} (h : At nthr i m (.wake state n c)) :
    At nthr i (m.store (children nthr state.vpid c) state.sense)
      (act nthr m (.wake state n c)).2 := by
  obtain ⟨hm, hn⟩ := h
  simp only [act]
  split
  case isTrue => exact ⟨⟨hm.has, hm.calls, hm.reports, hm.woken, hm.rearms, hm.sense, hm.le⟩, hn⟩
  case isFalse =>
    refine ⟨hm.has, hm.calls, hm.reports, hm.woken, hm.rearms, ?_, hn⟩
    rw [hm.sense, not_sense]

theorem Inv.subscribe (hi : Inv nthr m) (hnew : i ∉ m.roster.members) :
    Inv nthr (subscribe i m).1 where
  counted := hi.counted.subscribe hnew
  absent t ht := hi.absent t (Roster.length_le_of_subscribe ht)
  untouched t ht := hi.untouched t (Roster.length_le_of_subscribe ht)
  reports_le := hi.reports_le
  tree := hi.tree
  rearmed := hi.rearmed
  armed := hi.armed
  woken_le := hi.woken_le
  asleep := hi.asleep

/-! ## Every run -/

/-- A step in which a thread changes only what is its own. -/
theorem At.other {p : Pc} (h : At nthr j m p) (hm : m.roster.Has state.vpid i) (hj : j ≠ i)
    (hroster : m'.roster = m.roster) (hreports : ∀ t, m.reports t ≤ m'.reports t)
    (hown : ∀ t, t ≠ state.vpid → m'.calls t = m.calls t ∧ m'.reports t = m.reports t ∧
      m'.woken t = m.woken t ∧ m'.rearms t = m.rearms t) : At nthr j m' p := by
  refine h.mono hreports (fun t ht => hroster ▸ ht) (fun hnew => hroster ▸ hnew) fun t ht => ?_
  refine hown t ?_
  rintro rfl
  exact hj (ht.unique hm)

theorem At.other_subscribe {p : Pc} (h : At nthr j m p) (hj : j ≠ i) :
    At nthr j (subscribe i m).1 p := by
  exact h.mono (fun t => le_rfl) (fun t ht => ht.subscribe i)
    (fun hnew => Roster.not_mem_subscribe hnew hj) fun t ht => ⟨rfl, rfl, rfl, rfl⟩

theorem At.calls {p : Pc} (h : At nthr i m p) :
    i ∉ m.roster.members ∨ ∃ t, m.roster.Has t i ∧ m.calls t = p.started := by
  cases p with
  | new => exact .inl h
  | idle => exact .inr ⟨_, Member.has h, Member.calls h⟩
  | check | reinit | report | wait | wake => exact .inr ⟨_, h.1.has, h.1.calls⟩

/-- A thread has returned from no more calls than the root has told of. -/
theorem At.le {p : Pc} (h : At nthr i m p) : p.returned ≤ m.reports 0 := by
  cases p with
  | new => exact Nat.zero_le _
  | idle => exact Member.le h
  | check | reinit | report | wait | wake => exact h.1.le

theorem init_inv (h32 : nthr < 2 ^ 32) : Inv nthr (init nthr : Mem ι) where
  counted := ⟨List.nodup_nil, rfl⟩
  absent _ _ := rfl
  untouched _ _ := ⟨rfl, fun _ => rfl⟩
  reports_le _ := le_rfl
  tree _ _ _ := le_rfl
  rearmed _ _ _ := le_rfl
  armed c hc hlt := by
    refine ⟨le_rfl, Nat.zero_le _, ?_⟩
    rw [parent_eq hc]
    exact havechild_eq hc hlt h32
  woken_le _ := le_rfl
  asleep _ _ := rfl

variable [Fintype ι]

theorem at_subscribe (hcard : Fintype.card ι < 2 ^ 32) (hi : Inv nthr m) :
    At nthr i (subscribe i m).1 (subscribe i m).2 := by
  have htid := hi.counted.tid_eq_length hcard
  have hcalls : m.calls m.roster.tid = 0 := hi.absent _ htid.ge
  have hreports : m.reports m.roster.tid = 0 := Nat.le_zero.mp (hcalls ▸ hi.reports_le _)
  obtain ⟨hwoken, hrearms⟩ := hi.untouched _ htid.ge
  exact ⟨hi.counted.has_subscribe hcard i, hcalls, hreports, fun _ => hwoken,
    fun k _ => hrearms k, rfl, Nat.zero_le _⟩

theorem invariant (h32 : Fintype.card ι < 2 ^ 32) :
    Threads.Invariant (Step (ι := ι) (Fintype.card ι)) (fun _ _ _ => True)
      (Inv (Fintype.card ι)) (At (Fintype.card ι)) where
  own {i m p m' p'} hstep _ hinv hat := by
    cases hstep with
    | subscribe => exact ⟨hinv.subscribe hat, at_subscribe h32 hinv⟩
    | call state n => exact ⟨hinv.call (Member.has hat), at_call hat⟩
    | act h =>
      cases p with
      | new | idle => simp [Pc.started, Pc.returned] at h
      | check state n k => exact ⟨hinv, at_check hinv hat⟩
      | reinit state n k => exact ⟨hinv.rearm h32 hat, at_rearm hat⟩
      | report state n =>
        exact ⟨hinv.report hat (hat.1.has.lt_card hinv.counted), at_report hat⟩
      | wait state n =>
        simp only [act]
        split
        case isTrue => exact ⟨hinv, hat⟩
        case isFalse hflag =>
          exact ⟨hinv.wake hat (not_not.mp hflag), at_wake hinv hat (not_not.mp hflag)⟩
      | wake state n c =>
        exact ⟨hinv.wakeChild hat (hat.1.has.lt_card hinv.counted), at_wakeChild hat⟩
  other {i m p m' p'} hstep _ hinv hat j q hj hatj := by
    cases hstep with
    | subscribe => exact hatj.other_subscribe hj
    | call state n =>
      exact hatj.other (Member.has hat) hj rfl (fun t => le_rfl) fun t ht =>
        ⟨Function.update_of_ne ht .., rfl, rfl, rfl⟩
    | act h =>
      cases p with
      | new | idle => simp [Pc.started, Pc.returned] at h
      | check state n k => exact hatj
      | reinit state n k =>
        exact hatj.other hat.1.has hj rfl (fun t => le_rfl) fun t ht =>
          ⟨rfl, rfl, rfl, Function.update_of_ne ht ..⟩
      | report state n =>
        exact hatj.other hat.1.has hj rfl (reports_le_report m _) fun t ht =>
          ⟨rfl, Function.update_of_ne ht .., rfl, rfl⟩
      | wait state n =>
        simp only [act]
        split
        case isTrue => exact hatj
        case isFalse =>
          exact hatj.other hat.1.has hj rfl (fun t => le_rfl) fun t ht =>
            ⟨rfl, rfl, Function.update_of_ne ht .., rfl⟩
      | wake state n c =>
        exact hatj.other hat.1.has hj rfl (fun t => le_rfl) fun t ht => ⟨rfl, rfl, rfl, rfl⟩

/-- No thread returns from a call before every other one has started the call with the same
number. -/
theorem mcs_separates [DecidableEq ι] (h32 : Fintype.card ι < 2 ^ 32)
    {s : Threads.System (Mem ι) Pc ι}
    (hr : Threads.System.Reachable (Step (Fintype.card ι)) (fun _ _ _ => True)
      ⟨init (Fintype.card ι), fun _ => .new⟩ s) (i j : ι) :
    (s.pc i).returned ≤ (s.pc j).started := by
  obtain ⟨hinv, hat⟩ := (invariant h32).reachable hr (fun _ => trivial) (init_inv h32)
    fun i => (List.not_mem_nil : i ∉ [])
  have hall : ∀ t < Fintype.card ι, (s.pc i).returned ≤ s.mem.calls t := fun t ht =>
    (hat i).2.le.trans ((hinv.root_le ht).trans (hinv.reports_le t))
  exact hinv.counted.le_of_forall hall hinv.absent (hat j).2.calls

omit [Fintype ι] in
/-- A thread makes `n` accesses in a row. -/
theorem reachable_acts [DecidableEq ι] {s₀ s : Threads.System (Mem ι) Pc ι}
    (hr : Threads.System.Reachable (Step nthr) (fun _ _ _ => True) s₀ s) (i : ι) (n : Nat) :
    Threads.System.Reachable (Step nthr) (fun _ _ _ => True) s₀
      (s.acts (fun _ => act nthr) i n) := by
  refine hr.acts i n (fun k _ m p _ _ => ?_) fun _ _ _ => trivial
  cases p with
  | new | idle => exact .inl rfl
  | check | reinit | report | wait | wake => exact .inr (.act rfl)

/-- The root has returned from its second call, and its child is still there. -/
theorem mcs_separates_two :
    ∃ s : Threads.System (Mem Bool) Pc Bool,
      Threads.System.Reachable (Step 2) (fun _ _ _ => True) ⟨init 2, fun _ => .new⟩ s ∧
        (s.pc false).returned = 2 ∧ (s.pc true).returned = 1 ∧ 2 ≤ (s.pc true).started := by
  have h₁ := (Relation.ReflTransGen.refl (r := Threads.System.Step (Step 2) (fun _ _ _ => True))
    (a := (⟨init 2, fun _ => .new⟩ : Threads.System (Mem Bool) Pc Bool))).tail
      (.run false (.subscribe _) fun _ => trivial)
  have h₂ := h₁.tail (.run true (.subscribe _) fun _ => trivial)
  -- the other thread is the child of the root
  have h₃ := reachable_acts (h₂.tail (.run true (.call _ ⟨~~~0, 1⟩ 0) fun _ => trivial)) true 9
  have h₄ := reachable_acts (h₃.tail (.run false (.call _ ⟨~~~0, 0⟩ 0) fun _ => trivial)) false 11
  have h₅ := reachable_acts h₄ true 3
  -- the sense of the second episode is the other one
  have h₆ := reachable_acts (h₅.tail (.run true (.call _ ⟨0, 1⟩ 1) fun _ => trivial)) true 9
  have h₇ := reachable_acts (h₆.tail (.run false (.call _ ⟨0, 0⟩ 1) fun _ => trivial)) false 11
  have hsep : ∀ s : Threads.System (Mem Bool) Pc Bool,
      Threads.System.Reachable (Step 2) (fun _ _ _ => True) ⟨init 2, fun _ => .new⟩ s →
      (s.pc false).returned = 2 → 2 ≤ (s.pc true).started :=
    fun s hr h => h ▸ mcs_separates (ι := Bool) (by decide) hr false true
  have hsecond := hsep _ h₇
  exact ⟨_, h₇, by decide +kernel, by decide +kernel, hsecond (by decide +kernel)⟩

end ConcurrencyKit.Barrier.Mcs
