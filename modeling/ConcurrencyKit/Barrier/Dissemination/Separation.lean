import ConcurrencyKit.Barrier.Dissemination.Model

/-!
# No thread of a dissemination barrier is ahead of another one

After its waits of the rounds below `k` a thread knows of the `2 ^ k` threads up to itself that they
have started the call. The flag that it waits for tells how many times its partner has set it, but
only whether that is even or odd. This is enough since the partner is at most one call behind: all
threads have started the call before this one, so all have left the one before that.
-/

namespace ConcurrencyKit.Barrier.Dissemination

/-! ## Partners -/

theorem size_spec {nthr : Nat} (h1 : 1 ≤ nthr) (hn : nthr ≤ 2 ^ 31) :
    size nthr ≤ 31 ∧ nthr ≤ 2 ^ size nthr := by
  rcases eq_or_lt_of_le h1 with rfl | h2
  · exact ⟨by decide, by decide⟩
  · exact ⟨(logUp_spec h2 hn).1, (logUp_spec h2 hn).2.1⟩

theorem partner_eq {nthr i k : Nat} (h1 : 1 ≤ nthr) (hn : nthr ≤ 2 ^ 31) (hi : i < nthr)
    (hk : k < size nthr) : partner nthr i k = (i + 2 ^ k) % nthr := by
  have hk31 : k < 31 := hk.trans_le (size_spec h1 hn).1
  have hpow : 2 ^ k < 2 ^ 31 := Nat.pow_lt_pow_right (by omega) hk31
  have hoffset : (1 <<< k) % 2 ^ 32 = 2 ^ k := by
    rw [Nat.one_shiftLeft, Nat.mod_eq_of_lt (by omega)]
  have hsum : (i + 2 ^ k) % 2 ^ 32 = i + 2 ^ k := Nat.mod_eq_of_lt (by omega)
  simp only [partner, hoffset, hsum]
  split
  case isTrue hand =>
    obtain ⟨j, rfl⟩ := (Nat.and_sub_one_eq_zero_iff_isPowerOfTwo (by omega)).mp hand
    rw [Nat.and_two_pow_sub_one_eq_mod]
  case isFalse => rfl

theorem partner_lt {nthr i k : Nat} (h1 : 1 ≤ nthr) (hn : nthr ≤ 2 ^ 31) (hi : i < nthr)
    (hk : k < size nthr) : partner nthr i k < nthr := by
  rw [partner_eq h1 hn hi hk]
  exact Nat.mod_lt _ h1

theorem partner_inj {nthr i j k : Nat} (h1 : 1 ≤ nthr) (hn : nthr ≤ 2 ^ 31) (hi : i < nthr)
    (hj : j < nthr) (hk : k < size nthr) (heq : partner nthr i k = partner nthr j k) : i = j := by
  rw [partner_eq h1 hn hi hk, partner_eq h1 hn hj hk] at heq
  have hmod : i % nthr = j % nthr := Nat.ModEq.add_right_cancel' (2 ^ k) heq
  rwa [Nat.mod_eq_of_lt hi, Nat.mod_eq_of_lt hj] at hmod

/-- Every thread is the partner of one. -/
theorem exists_partner {nthr i k : Nat} (h1 : 1 ≤ nthr) (hn : nthr ≤ 2 ^ 31) (hi : i < nthr)
    (hk : k < size nthr) : ∃ u < nthr, partner nthr u k = i := by
  have hinj : Set.InjOn (fun u => partner nthr u k) (Finset.range nthr) := by
    intro u hu v hv heq
    exact partner_inj h1 hn (by simpa using hu) (by simpa using hv) hk heq
  have hmaps : ∀ u ∈ Finset.range nthr, partner nthr u k ∈ Finset.range nthr := by
    intro u hu
    simpa using partner_lt h1 hn (by simpa using hu) hk
  obtain ⟨u, hu, heq⟩ := Finset.surj_on_of_inj_on_of_card_le (fun u _ => partner nthr u k) hmaps
    (fun u v hu hv heq => hinj hu hv heq) le_rfl i (by simpa using hi)
  exact ⟨u, by simpa using hu, heq.symm⟩

/-- Thread `t` is at most `2 ^ k - 1` places before `u`. -/
def Before (nthr k u t : Nat) : Prop := ∃ d < 2 ^ k, (t + d) % nthr = u

theorem before_zero {nthr u t : Nat} (ht : t < nthr) (h : Before nthr 0 u t) : t = u := by
  obtain ⟨d, hd, heq⟩ := h
  obtain rfl : d = 0 := by simpa using hd
  rwa [Nat.add_zero, Nat.mod_eq_of_lt ht] at heq

/-- Twice as many threads are before the one that is `2 ^ k` places further on. -/
theorem before_succ {nthr k u t : Nat} (h : Before nthr (k + 1) u t) :
    Before nthr k u t ∨ ∃ v, Before nthr k v t ∧ (v + 2 ^ k) % nthr = u := by
  obtain ⟨d, hd, heq⟩ := h
  by_cases hlt : d < 2 ^ k
  · exact .inl ⟨d, hlt, heq⟩
  · rw [Nat.pow_succ] at hd
    refine .inr ⟨(t + (d - 2 ^ k)) % nthr, ⟨d - 2 ^ k, by omega, rfl⟩, ?_⟩
    rw [Nat.mod_add_mod, ← heq]
    congr 1
    omega

/-- After the last round no thread is left out. -/
theorem before_size {nthr u t : Nat} (hn : nthr ≤ 2 ^ 31) (hu : u < nthr) (ht : t < nthr) :
    Before nthr (size nthr) u t := by
  have hsize := (size_spec (by omega) hn).2
  refine ⟨(u + nthr - t) % nthr, (Nat.mod_lt _ (by omega)).trans_le hsize, ?_⟩
  rw [Nat.add_mod_mod, show t + (u + nthr - t) = u + nthr by omega, Nat.add_mod_right,
    Nat.mod_eq_of_lt hu]

/-! ## The invariant -/

/-- In how many of the calls before `w` the flags of the set `p` are used. -/
def uses (p w : Nat) : Nat := (w + 1 - p) / 2

variable {ι : Type} {nthr : Nat}

/-- The number of times a flag has been set is known up to a multiple of two, and who has set one
knows of the threads before him. -/
structure Inv (nthr : Nat) (m : Mem ι) : Prop where
  counted : m.roster.Counted
  absent : ∀ t, m.roster.members.length ≤ t → m.calls t = 0
  near : ∀ k < size nthr, ∀ t, m.wrote k t ≤ m.calls t ∧ m.calls t ≤ m.wrote k t + 1
  flag : ∀ p < 2, ∀ k < size nthr, ∀ u < nthr,
    m.tflag p k (partner nthr u k) = sense (uses p (m.wrote k u) + 1)
  know : ∀ k < size nthr, ∀ u n, n < m.wrote k u → ∀ t < nthr, Before nthr k u t → n < m.calls t

/-- A thread with a number that has returned from `n` calls and started `c` of them. -/
structure Member (nthr : Nat) (i : ι) (m : Mem ι) (state : State) (n c : Nat) : Prop where
  has : m.roster.Has state.tid i
  calls : m.calls state.tid = c
  parity : state.parity = n % 2
  sense : state.sense = sense (n / 2)
  all : ∀ t < nthr, n ≤ m.calls t

/-- What the program counter of a thread says about the memory. In a call it has set the flags of
the rounds below `k`, and knows of the threads before it in round `j`. -/
def At (nthr : Nat) (i : ι) (m : Mem ι) : Pc → Prop
  | .new => i ∉ m.roster.members
  | .idle state n =>
    Member nthr i m state n n ∧ ∀ k < size nthr, m.wrote k state.tid = n
  | .signal state n j =>
    Member nthr i m state n (n + 1) ∧ j < size nthr ∧
      (∀ k < size nthr, m.wrote k state.tid = if k < j then n + 1 else n) ∧
      ∀ t < nthr, Before nthr j state.tid t → n < m.calls t
  | .wait state n j =>
    Member nthr i m state n (n + 1) ∧ j < size nthr ∧
      (∀ k < size nthr, m.wrote k state.tid = if k < j + 1 then n + 1 else n) ∧
      ∀ t < nthr, Before nthr j state.tid t → n < m.calls t
  | .leave state n =>
    Member nthr i m state n (n + 1) ∧ (∀ k < size nthr, m.wrote k state.tid = n + 1) ∧
      ∀ t < nthr, n < m.calls t

/-! ## Steps -/

variable {i j : ι} {m m' : Mem ι} {state : State} {n k : Nat}

theorem uses_succ_self (n : Nat) : uses (n % 2) (n + 1) = n / 2 + 1 := by
  unfold uses
  omega

theorem uses_succ_of_ne {p : Nat} (hp : p < 2) (hne : p ≠ n % 2) : uses p (n + 1) = uses p n := by
  unfold uses
  omega

/-- A flag that its setter has set in all calls but possibly the last two does not have the sense of
the call before it has been set there. -/
theorem lt_of_sense {w : Nat} (hw : n ≤ w + 1) (h : sense (uses (n % 2) w + 1) = sense (n / 2)) :
    n < w := by
  have hmod := sense_eq_iff.mp h
  by_contra hle
  unfold uses at hmod
  omega

/-- The next round, or the end of the call. -/
theorem at_round (hn : nthr ≤ 2 ^ 31) {r : Nat} (hmember : Member nthr i m state n (n + 1))
    (htid : state.tid < nthr) (hr : r ≤ size nthr)
    (hwrote : ∀ k < size nthr, m.wrote k state.tid = if k < r then n + 1 else n)
    (hknow : ∀ t < nthr, Before nthr r state.tid t → n < m.calls t) :
    At nthr i m (round nthr state n r) := by
  unfold round
  split
  case isTrue hlt => exact ⟨hmember, hlt, hwrote, hknow⟩
  case isFalse hge =>
    obtain rfl : r = size nthr := by omega
    refine ⟨hmember, fun k hk => ?_, fun t ht => hknow t ht (before_size hn htid ht)⟩
    rw [hwrote k hk, if_pos hk]

/-- What a thread knows stays true when others go on. -/
theorem At.mono {p : Pc} (h : At nthr j m p) (hcalls : ∀ t, m.calls t ≤ m'.calls t)
    (hhas : ∀ t, m.roster.Has t j → m'.roster.Has t j)
    (hnew : j ∉ m.roster.members → j ∉ m'.roster.members)
    (hown : ∀ t, m.roster.Has t j → m'.calls t = m.calls t ∧ ∀ k, m'.wrote k t = m.wrote k t) :
    At nthr j m' p := by
  have hmember : ∀ {state n c}, Member nthr j m state n c → Member nthr j m' state n c := by
    intro state n c hm
    exact ⟨hhas _ hm.has, (hown _ hm.has).1.trans hm.calls, hm.parity, hm.sense,
      fun t ht => (hm.all t ht).trans (hcalls t)⟩
  cases p with
  | new => exact hnew h
  | idle state n =>
    obtain ⟨hm, hwrote⟩ := h
    exact ⟨hmember hm, fun k hk => ((hown _ hm.has).2 k).trans (hwrote k hk)⟩
  | signal state n r | wait state n r =>
    obtain ⟨hm, hr, hwrote, hknow⟩ := h
    exact ⟨hmember hm, hr, fun k hk => ((hown _ hm.has).2 k).trans (hwrote k hk),
      fun t ht hb => (hknow t ht hb).trans_le (hcalls t)⟩
  | leave state n =>
    obtain ⟨hm, hwrote, hknow⟩ := h
    exact ⟨hmember hm, fun k hk => ((hown _ hm.has).2 k).trans (hwrote k hk),
      fun t ht => (hknow t ht).trans_le (hcalls t)⟩

theorem calls_le_call (m : Mem ι) (u t : Nat) : m.calls t ≤ (m.call u).calls t :=
  le_update_succ m.calls u t

theorem Inv.call (hi : Inv nthr m) (hm : Member nthr i m state n n)
    (hwrote : ∀ k < size nthr, m.wrote k state.tid = n) : Inv nthr (m.call state.tid) where
  counted := hi.counted
  absent t ht := by
    have hne : t ≠ state.tid := ne_of_gt (hm.has.lt.trans_le ht)
    simp only [Mem.call, Function.update_of_ne hne]
    exact hi.absent t ht
  near k hk t := by
    by_cases ht : t = state.tid
    · subst ht
      simp only [Mem.call, Function.update_self, hwrote k hk, hm.calls]
      omega
    · simp only [Mem.call, Function.update_of_ne ht]
      exact hi.near k hk t
  flag := hi.flag
  know k hk u n' hn' t ht hb := (hi.know k hk u n' hn' t ht hb).trans_le (calls_le_call m _ t)

theorem at_call (hn : nthr ≤ 2 ^ 31) (hm : Member nthr i m state n n) (htid : state.tid < nthr)
    (hwrote : ∀ k < size nthr, m.wrote k state.tid = n) :
    At nthr i (m.call state.tid) (round nthr state n 0) := by
  have hcall : (m.call state.tid).calls state.tid = n + 1 := by
    simp only [Mem.call, Function.update_self, hm.calls]
  refine at_round hn ⟨hm.has, hcall, hm.parity, hm.sense, fun t ht => ?_⟩ htid (Nat.zero_le _)
    (fun k hk => ?_) fun t ht hb => ?_
  · exact (hm.all t ht).trans (calls_le_call m _ t)
  · rw [if_neg (Nat.not_lt_zero k)]
    exact hwrote k hk
  · rw [before_zero ht hb, hcall]
    exact Nat.lt_succ_self n

/-- How many times a thread has set its flags after it has set one more. -/
theorem wrote_signal (m : Mem ι) (p k t : Nat) (s : BitVec 32) (k' u : Nat) :
    (m.signal nthr p k t s).wrote k' u =
      if k' = k ∧ u = t then m.wrote k t + 1 else m.wrote k' u := by
  simp only [Mem.signal, Function.update_apply, ite_and]
  split
  case isTrue hk => rw [Function.update_apply, hk]
  case isFalse => rfl

theorem Inv.signal (hn1 : 1 ≤ nthr) (hn : nthr ≤ 2 ^ 31) (hi : Inv nthr m)
    (h : At nthr i m (.signal state n k)) (htid : state.tid < nthr) :
    Inv nthr (m.signal nthr state.parity k state.tid state.sense) := by
  obtain ⟨hm, hk, hwrote, hknow⟩ := h
  have hown : m.wrote k state.tid = n := by rw [hwrote k hk, if_neg (lt_irrefl k)]
  refine ⟨hi.counted, hi.absent, fun k' hk' t => ?_, fun p hp k' hk' u hu => ?_,
    fun k' hk' u n' hn' t ht hb => ?_⟩
  · rw [wrote_signal]
    split
    case isTrue heq =>
      rw [heq.2, hown]
      exact ⟨hm.calls.ge, hm.calls.le.trans (Nat.le_succ _)⟩
    case isFalse => exact hi.near k' hk' t
  · rw [wrote_signal]
    by_cases heq : k' = k ∧ u = state.tid
    case pos =>
      obtain ⟨rfl, rfl⟩ := heq
      rw [if_pos ⟨rfl, rfl⟩, hown]
      by_cases hpar : p = state.parity
      · subst hpar
        simp only [Mem.signal, Function.update_self]
        rw [hm.parity, uses_succ_self, hm.sense, sense_eq_iff]
        omega
      · rw [uses_succ_of_ne hp (hm.parity ▸ hpar), ← hown, ← hi.flag p hp k' hk' _ hu]
        simp only [Mem.signal, Function.update_of_ne hpar]
    case neg =>
      rw [if_neg heq, ← hi.flag p hp k' hk' u hu]
      simp only [Mem.signal]
      by_cases hpar : p = state.parity
      · subst hpar
        rw [Function.update_self]
        by_cases hkk : k' = k
        · subst hkk
          rw [Function.update_self]
          exact Function.update_of_ne
            (fun hp => heq ⟨rfl, partner_inj hn1 hn hu htid hk' hp⟩) ..
        · rw [Function.update_of_ne hkk]
      · rw [Function.update_of_ne hpar]
  · rw [wrote_signal] at hn'
    split at hn'
    case isTrue heq =>
      obtain ⟨rfl, rfl⟩ := heq
      rw [hown] at hn'
      exact (Nat.lt_succ_iff.mp hn').trans_lt (hknow t ht hb)
    case isFalse => exact hi.know k' hk' u n' hn' t ht hb

theorem at_signal (h : At nthr i m (.signal state n k)) :
    At nthr i (m.signal nthr state.parity k state.tid state.sense) (.wait state n k) := by
  obtain ⟨hm, hk, hwrote, hknow⟩ := h
  refine ⟨⟨hm.has, hm.calls, hm.parity, hm.sense, hm.all⟩, hk, fun k' hk' => ?_, hknow⟩
  rw [wrote_signal]
  by_cases heq : k' = k
  · subst heq
    rw [if_pos ⟨rfl, rfl⟩, if_pos (Nat.lt_succ_self _), hwrote k' hk', if_neg (lt_irrefl _)]
  · rw [if_neg fun hand => heq hand.1, hwrote k' hk']
    congr 1
    simp only [eq_iff_iff]
    omega

/-- A flag that has the sense of the call has been set in it. -/
theorem at_wait (hn1 : 1 ≤ nthr) (hn : nthr ≤ 2 ^ 31) (hi : Inv nthr m)
    (h : At nthr i m (.wait state n k)) (htid : state.tid < nthr)
    (hflag : m.tflag state.parity k state.tid = state.sense) :
    At nthr i m (round nthr state n (k + 1)) := by
  obtain ⟨hm, hk, hwrote, hknow⟩ := h
  obtain ⟨u, hu, hpartner⟩ := exists_partner hn1 hn htid hk
  have hset : n < m.wrote k u := by
    refine lt_of_sense ((hm.all u hu).trans (hi.near k hk u).2) ?_
    rw [← hm.parity, ← hi.flag _ (by rw [hm.parity]; omega) k hk u hu, hpartner, hflag, hm.sense]
  refine at_round hn hm htid hk hwrote fun t ht hb => ?_
  rcases before_succ hb with hb | ⟨v, hv, heq⟩
  · exact hknow t ht hb
  · have hvlt : v < nthr := by
      obtain ⟨d, -, rfl⟩ := hv
      exact Nat.mod_lt _ hn1
    obtain rfl : v = u := by
      refine partner_inj hn1 hn hvlt hu hk ?_
      rw [partner_eq hn1 hn hvlt hk, heq, hpartner]
    exact hi.know k hk v n hset t ht hv

theorem at_leave (h : At nthr i m (.leave state n)) :
    At nthr i m (act nthr m (.leave state n)).2 := by
  obtain ⟨hm, hwrote, hknow⟩ := h
  refine ⟨⟨hm.has, hm.calls, ?_, ?_, hknow⟩, hwrote⟩
  · simp only [hm.parity]
    omega
  · simp only [hm.parity, hm.sense, not_sense]
    split
    case isTrue => rw [sense_eq_iff]; omega
    case isFalse => rw [sense_eq_iff]; omega

theorem Inv.subscribe (hi : Inv nthr m) (hnew : i ∉ m.roster.members) :
    Inv nthr (subscribe i m).1 where
  counted := hi.counted.subscribe hnew
  absent t ht := hi.absent t (Roster.length_le_of_subscribe ht)
  near := hi.near
  flag := hi.flag
  know := hi.know

/-! ## Every run -/

/-- A thread whose call or return does not change what another one knows. -/
theorem At.other_call {p : Pc} (h : At nthr j m p) (hm : m.roster.Has state.tid i) (hj : j ≠ i) :
    At nthr j (m.call state.tid) p := by
  refine h.mono (calls_le_call m _) (fun t ht => ht) id fun t ht => ⟨?_, fun k => rfl⟩
  have hne : t ≠ state.tid := by
    rintro rfl
    exact hj (ht.unique hm)
  exact Function.update_of_ne hne ..

theorem At.other_signal {p : Pc} {q : Nat} {s : BitVec 32} (h : At nthr j m p)
    (hm : m.roster.Has state.tid i) (hj : j ≠ i) :
    At nthr j (m.signal nthr q k state.tid s) p := by
  refine h.mono (fun t => le_rfl) (fun t ht => ht) id fun t ht => ⟨rfl, fun k' => ?_⟩
  rw [wrote_signal, if_neg]
  rintro ⟨-, rfl⟩
  exact hj (ht.unique hm)

theorem At.other_subscribe {p : Pc} (h : At nthr j m p) (hj : j ≠ i) :
    At nthr j (subscribe i m).1 p := by
  exact h.mono (fun t => le_rfl) (fun t ht => ht.subscribe i)
    (fun hnew => Roster.not_mem_subscribe hnew hj) fun t ht => ⟨rfl, fun k => rfl⟩

variable [Fintype ι]

theorem at_subscribe (hcard : Fintype.card ι < 2 ^ 32) (hi : Inv nthr m) :
    At nthr i (subscribe i m).1 (subscribe i m).2 := by
  have hcalls : m.calls m.roster.tid = 0 :=
    hi.absent _ (hi.counted.tid_eq_length hcard).ge
  refine ⟨⟨hi.counted.has_subscribe hcard i, hcalls, rfl, rfl, fun t _ => Nat.zero_le _⟩,
    fun k hk => ?_⟩
  have := (hi.near k hk m.roster.tid).1
  simp only [subscribe]
  omega

theorem invariant (hn1 : 1 ≤ Fintype.card ι) (hn : Fintype.card ι ≤ 2 ^ 31) :
    Threads.Invariant (Step (ι := ι) (Fintype.card ι)) (fun _ _ _ => True)
      (Inv (Fintype.card ι)) (At (Fintype.card ι)) where
  own {i m p m' p'} hstep _ hinv hat := by
    cases hstep with
    | subscribe => exact ⟨hinv.subscribe hat, at_subscribe (by omega) hinv⟩
    | call state n =>
      obtain ⟨hm, hwrote⟩ := hat
      have htid := hm.has.lt_card hinv.counted
      exact ⟨hinv.call hm hwrote, at_call hn hm htid hwrote⟩
    | act h =>
      cases p with
      | new | idle => simp [Pc.started, Pc.returned] at h
      | signal state n k =>
        have htid := hat.1.has.lt_card hinv.counted
        exact ⟨hinv.signal hn1 hn hat htid, at_signal hat⟩
      | wait state n k =>
        have htid := hat.1.has.lt_card hinv.counted
        refine ⟨hinv, ?_⟩
        simp only [act]
        split
        case isTrue => exact hat
        case isFalse hflag => exact at_wait hn1 hn hinv hat htid (not_not.mp hflag)
      | leave state n => exact ⟨hinv, at_leave hat⟩
  other {i m p m' p'} hstep _ hinv hat j q hj hatj := by
    cases hstep with
    | subscribe => exact hatj.other_subscribe hj
    | call state n => exact hatj.other_call hat.1.has hj
    | act h =>
      cases p with
      | new | idle => simp [Pc.started, Pc.returned] at h
      | signal state n k => exact hatj.other_signal hat.1.has hj
      | wait state n k => exact hatj
      | leave state n => exact hatj

omit [Fintype ι] in
theorem init_inv : Inv nthr (init : Mem ι) where
  counted := ⟨List.nodup_nil, rfl⟩
  absent _ _ := rfl
  near _ _ _ := ⟨le_rfl, Nat.zero_le _⟩
  flag p hp _ _ _ _ := by
    have : uses p 0 = 0 := by
      unfold uses
      omega
    simp only [init, this]
    rfl
  know _ _ _ _ h := by simp [init] at h

omit [Fintype ι] in
/-- A thread has returned from no more calls than any thread has started. -/
theorem At.all {p : Pc} (h : At nthr i m p) : ∀ t < nthr, p.returned ≤ m.calls t := by
  cases p with
  | new => exact fun t _ => Nat.zero_le _
  | idle | signal | wait | leave => exact h.1.all

omit [Fintype ι] in
theorem At.calls {p : Pc} (h : At nthr i m p) :
    i ∉ m.roster.members ∨ ∃ t, m.roster.Has t i ∧ m.calls t = p.started := by
  cases p with
  | new => exact .inl h
  | idle | signal | wait | leave => exact .inr ⟨_, h.1.has, h.1.calls⟩

/-- As long as there are at most `2 ^ 31` threads, none returns from a call before every other one
has started the call with the same number. -/
theorem dissemination_separates [DecidableEq ι] (hn : Fintype.card ι ≤ 2 ^ 31)
    {s : Threads.System (Mem ι) Pc ι}
    (hr : Threads.System.Reachable (Step (Fintype.card ι)) (fun _ _ _ => True)
      ⟨init, fun _ => .new⟩ s) (i j : ι) : (s.pc i).returned ≤ (s.pc j).started := by
  have hn1 : 1 ≤ Fintype.card ι := Fintype.card_pos_iff.mpr ⟨i⟩
  obtain ⟨hinv, hat⟩ := (invariant hn1 hn).reachable hr (fun _ => trivial) init_inv
    fun i => (List.not_mem_nil : i ∉ [])
  exact hinv.counted.le_of_forall (hat i).2.all hinv.absent (hat j).2.calls

omit [Fintype ι] in
/-- A thread makes `n` accesses in a row. -/
theorem reachable_acts [DecidableEq ι] {s₀ s : Threads.System (Mem ι) Pc ι}
    (hr : Threads.System.Reachable (Step nthr) (fun _ _ _ => True) s₀ s) (i : ι) (n : Nat) :
    Threads.System.Reachable (Step nthr) (fun _ _ _ => True) s₀
      (s.acts (fun _ => act nthr) i n) := by
  refine hr.acts i n (fun k _ m p _ _ => ?_) fun _ _ _ => trivial
  cases p with
  | new | idle => exact .inl rfl
  | signal | wait | leave => exact .inr (.act rfl)

/-- One of two threads has returned from its second call while the other one is in it. -/
theorem dissemination_separates_two :
    ∃ s : Threads.System (Mem Bool) Pc Bool,
      Threads.System.Reachable (Step 2) (fun _ _ _ => True) ⟨init, fun _ => .new⟩ s ∧
        (s.pc false).returned = 2 ∧ (s.pc true).returned = 1 ∧ 2 ≤ (s.pc true).started := by
  have h₁ := (Relation.ReflTransGen.refl (r := Threads.System.Step (Step 2) (fun _ _ _ => True))
    (a := (⟨init, fun _ => .new⟩ : Threads.System (Mem Bool) Pc Bool))).tail
      (.run false (.subscribe _) fun _ => trivial)
  have h₂ := h₁.tail (.run true (.subscribe _) fun _ => trivial)
  have h₃ := reachable_acts (h₂.tail (.run false (.call _ ⟨0, ~~~0, 0⟩ 0) fun _ => trivial)) false 1
  have h₄ := reachable_acts (h₃.tail (.run true (.call _ ⟨0, ~~~0, 1⟩ 0) fun _ => trivial)) true 3
  have h₅ := reachable_acts h₄ false 2
  -- the second episode uses the flags of the other parity
  have h₆ := reachable_acts (h₅.tail (.run true (.call _ ⟨1, ~~~0, 1⟩ 1) fun _ => trivial)) true 1
  have h₇ := reachable_acts (h₆.tail (.run false (.call _ ⟨1, ~~~0, 0⟩ 1) fun _ => trivial)) false 3
  have hsep : ∀ s : Threads.System (Mem Bool) Pc Bool,
      Threads.System.Reachable (Step 2) (fun _ _ _ => True) ⟨init, fun _ => .new⟩ s →
      (s.pc false).returned = 2 → 2 ≤ (s.pc true).started :=
    fun s hr h => h ▸ dissemination_separates (ι := Bool) (by decide) hr false true
  have hsecond := hsep _ h₇
  exact ⟨_, h₇, by decide +kernel, by decide +kernel, hsecond (by decide +kernel)⟩

omit [Fintype ι] in
/-- Where there are no rounds, a thread returns before another one has subscribed. -/
theorem returns_alone [DecidableEq ι] (hsize : size nthr = 0) (hj : j ≠ i) :
    ∃ s : Threads.System (Mem ι) Pc ι,
      Threads.System.Reachable (Step nthr) (fun _ _ _ => True) ⟨init, fun _ => .new⟩ s ∧
        (s.pc i).returned = 1 ∧ (s.pc j).started = 0 := by
  let p₁ : Pc := .idle ⟨0, ~~~0, 0⟩ 0
  let p₂ : Pc := .leave ⟨0, ~~~0, 0⟩ 0
  have hround : round nthr ⟨0, ~~~0, 0⟩ 0 0 = p₂ := if_neg (by omega)
  let s₁ : Threads.System (Mem ι) Pc ι :=
    ⟨(subscribe i init).1, Function.update (fun _ => .new) i p₁⟩
  let s₂ : Threads.System (Mem ι) Pc ι := ⟨s₁.mem.call 0, Function.update s₁.pc i p₂⟩
  refine ⟨⟨s₂.mem, Function.update s₂.pc i (act nthr s₂.mem p₂).2⟩, ?_, ?_, ?_⟩
  · refine .tail (b := s₂) (.tail (b := s₁) (.tail .refl (.run i (.subscribe _) fun _ => trivial))
      (.run i ?_ fun _ => trivial)) (.run i ?_ fun _ => trivial)
    · simp only [s₁, Function.update_self]
      exact hround ▸ .call _ _ _
    · simp only [s₂, Function.update_self]
      exact .act rfl
  · simp [act, p₂, Pc.returned]
  · simp [s₁, s₂, hj, Pc.started]

/-- With more threads the power of two does not fit into a word, and there are no rounds. -/
theorem dissemination_unseparated :
    ¬ ∀ (s : Threads.System (Mem (Fin (2 ^ 31 + 1))) Pc (Fin (2 ^ 31 + 1))),
      Threads.System.Reachable (Step (2 ^ 31 + 1)) (fun _ _ _ => True) ⟨init, fun _ => .new⟩ s →
        ∀ i j, (s.pc i).returned ≤ (s.pc j).started := by
  intro h
  have hne : (1 : Fin (2 ^ 31 + 1)) ≠ 0 := by decide
  have hsize : size (2 ^ 31 + 1) = 0 := logUp_large (by norm_num) (by norm_num)
  obtain ⟨s, hr, hreturned, hstarted⟩ := returns_alone hsize hne
  have := h s hr 0 1
  omega

end ConcurrencyKit.Barrier.Dissemination
