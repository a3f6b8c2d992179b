import ConcurrencyKit.Barrier.Combining.Invariant

/-!
# No thread of a combining tree barrier is ahead of another one

The last member to arrive at a group finds that all others have arrived since the count has been
cleared, and represents the group from then on. It turns the senses of the groups that it represents
from the root down. A thread that waits at a group goes on when the sense has been turned in its
call.
-/

namespace ConcurrencyKit.Barrier.Combining

variable {γ ι : Type} {g : Groups γ} {root a b c : γ} {names path : List γ} {group : ι → γ}
  {x : ι ⊕ γ} {i j : ι} {m : Mem γ ι} {n : Nat} {s : BitVec 32}

variable [DecidableEq γ] [Fintype ι]

/-! ## Steps -/

/-- A member that arrives does so for the first time since the count has been cleared. -/
theorem Inv.arrive_eq (hi : Inv g names group m) (hx : x ∈ members g names group a)
    (harr : m.arrivals x = n) (hn : n ≤ m.turns a) : m.turns a = n ∧ m.resets a = n := by
  have hle := hi.turns_le a
  have hge := (hi.arrivals a x hx).1
  omega

theorem Inv.hold (hi : Inv g names group m) (hall : ∀ x ∈ members g names group a,
    m.arrivals x = m.turns a + 1) : Inv g names group (m.hold i a) where
  k_eq := hi.k_eq
  parent_eq := hi.parent_eq
  turns_le := hi.turns_le
  arrivals := hi.arrivals
  count := hi.count
  sense := hi.sense
  up := hi.up
  down := hi.down
  held b j hj := by
    by_cases hb : b = a
    · exact hb ▸ hall
    · exact hi.held b j ((Function.update_of_ne hb ..).symm.trans hj)

theorem Inv.reset (hi : Inv g names group m) (ha : a ∈ names) (hh : Held i m n a) :
    Inv g names group (m.reset a) := by
  have hresets : ∀ b, (m.reset a).resets b = if b = a then n + 1 else m.resets b := by
    intro b
    simp only [Mem.reset]
    by_cases hb : b = a
    · subst hb
      simp [hh.resets]
    · simp [hb]
  have hall := hi.held a i hh.holder
  rw [hh.turns] at hall
  refine ⟨hi.k_eq, hi.parent_eq, fun b => ?_, fun b x hx => ?_, fun b hb => ?_, hi.sense, hi.up,
    hi.down, hi.held⟩
  · have hle := hi.turns_le b
    rw [hresets]
    split
    case isTrue heq =>
      rw [heq]
      exact hh.turns.le.trans (Nat.le_succ n)
    case isFalse => exact hle
  · rw [hresets]
    split
    case isTrue heq =>
      have := hall x (heq ▸ hx)
      simp only [Mem.reset]
      omega
    case isFalse => exact hi.arrivals b x hx
  · by_cases hba : b = a
    · subst hba
      have hempty : arrived g names group (m.reset b) b = ∅ := by
        refine Finset.filter_eq_empty_iff.mpr fun x hx => ?_
        have := hall x hx
        rw [hresets, if_pos rfl]
        simp only [Mem.reset]
        omega
      rw [hempty]
      exact Function.update_self ..
    · have hsame : arrived g names group (m.reset a) b = arrived g names group m b := by
        unfold arrived
        rw [hresets, if_neg hba]
        rfl
      rw [hsame, ← hi.count b hb]
      exact Function.update_of_ne hba ..

theorem Inv.turn (hi : Inv g names group m) (hturns : m.turns a = n) (hresets : m.resets a = n + 1)
    (hrel : Released g m n a) : Inv g names group (m.turn a (~~~ Barrier.sense (n + 1))) := by
  refine ⟨hi.k_eq, hi.parent_eq, fun b => ?_, hi.arrivals, hi.count, fun b hb => ?_,
    fun b hb c hc => ?_, hi.down, fun b j hj x hx => ?_⟩
  · rw [turns_turn]
    split
    case isTrue heq =>
      rw [heq, hturns]
      exact hresets.ge
    case isFalse => exact hi.turns_le b
  · rw [turns_turn]
    by_cases hba : b = a
    · subst hba
      rw [if_pos rfl, hturns, ← not_sense (n + 1)]
      exact Function.update_self ..
    · rw [if_neg hba, ← hi.sense b hb]
      exact Function.update_of_ne hba ..
  · refine le_trans ?_ (turns_le_turn m a c (~~~ Barrier.sense (n + 1)))
    rw [turns_turn]
    split
    case isTrue heq =>
      rw [hturns]
      exact hrel c (heq ▸ hc)
    case isFalse => exact hi.up b hb c hc
  · have hba : b ≠ a := by
      rintro rfl
      simp [Mem.turn] at hj
    rw [turns_turn, if_neg hba]
    exact hi.held b j ((Function.update_of_ne hba ..).symm.trans hj) x hx

theorem at_reset (hs : Staffed g root names group)
    (h : At g names group i m (.reset s n path a)) :
    At g names group i (m.reset a) (.load s n path a) := by
  obtain ⟨hown, ha, hp, hh, hrel⟩ := h
  refine ⟨hown, ha, hp.mono fun c hc hc' => ⟨hc'.holder, hc'.turns, ?_⟩,
    ⟨hh.holder, hh.turns, ?_⟩, hrel⟩
  · exact (Function.update_of_ne (hp.ne hs hc) ..).trans hc'.resets
  · exact (Function.update_self ..).trans (congrArg (· + 1) hh.resets)

theorem at_load (hi : Inv g names group m) (h : At g names group i m (.load s n path a)) :
    At g names group i m (.turn s n path a (m.groups.sense a)) := by
  obtain ⟨hown, ha, hp, hh, hrel⟩ := h
  exact ⟨hown, ha, hp, hh, hrel, by rw [hi.sense a ha, hh.2.1]⟩

theorem at_turn (hs : Staffed g root names group) (hi : Inv g names group m) {old : BitVec 32}
    (h : At g names group i m (.turn s n path a old)) :
    At g names group i (m.turn a (~~~ old)) (.back s n path) := by
  obtain ⟨⟨hsense, hle⟩, ha, hp, ⟨hholder, hturns, hresets⟩, hrel, hold⟩ := h
  have hp' : Path g names group i (m.turn a (~~~ old)) n path a := by
    refine hp.mono fun c hc hh => ⟨?_, ?_, hh.resets⟩
    · exact (Function.update_of_ne (hp.ne hs hc) ..).trans hh.holder
    · exact (Function.update_of_ne (hp.ne hs hc) ..).trans hh.turns
  refine at_back hsense hle hp' ?_ fun hnil => ?_
  · rw [turns_turn, if_pos rfl, hturns]
    exact Nat.lt_succ_self n
  · subst hnil
    exact (hi.held a i hholder _ (inl_mem.mpr hp)).trans (by rw [hturns])

/-! ## Arriving -/

variable [DecidableEq ι]

/-- The member is one more that has arrived at its group. -/
theorem arrived_arrive (hi : Inv g names group m) (hx : x ∈ members g names group a)
    (harr : m.arrivals x = n) (hn : n ≤ m.turns a) (b : γ) :
    arrived g names group (m.arrive x a) b =
      if b = a then Insert.insert x (arrived g names group m a)
      else arrived g names group m b := by
  have hresets := (hi.arrive_eq hx harr hn).2
  ext y
  by_cases hb : b = a
  · subst hb
    simp only [arrived, Finset.mem_filter, arrivals_arrive, if_true, Finset.mem_insert]
    by_cases hy : y = x
    · subst hy
      simp [hx, harr, Mem.arrive, hresets]
    · simp [hy, Mem.arrive]
  · rw [if_neg hb]
    simp only [arrived, Finset.mem_filter, arrivals_arrive]
    refine and_congr_right fun hmem => ?_
    have hy : y ≠ x := by
      rintro rfl
      exact hb (members_unique hmem hx)
    rw [if_neg hy]
    rfl

theorem Inv.arrive (hi : Inv g names group m) (hp : Path g names group i m n path a)
    (harr : m.arrivals (member i path) = n) (hn : n ≤ m.turns a) :
    Inv g names group (m.arrive (member i path) a) := by
  have hx := hp.member_mem
  obtain ⟨hturns, hresets⟩ := hi.arrive_eq hx harr hn
  refine ⟨hi.k_eq, hi.parent_eq, hi.turns_le, fun b y hy => ?_, fun b hb => ?_, hi.sense, hi.up,
    fun b y hy => ?_, fun b j hj y hy => ?_⟩
  · rw [arrivals_arrive]
    split
    case isFalse => exact hi.arrivals b y hy
    case isTrue heq =>
      subst heq
      rw [members_unique hy hx]
      simp only [Mem.arrive]
      omega
  · rw [arrived_arrive hi hx harr hn]
    by_cases hba : b = a
    · subst hba
      have hnew : member i path ∉ arrived g names group m b := by
        simp only [arrived, Finset.mem_filter, not_and]
        omega
      rw [if_pos rfl, Finset.card_insert_of_notMem hnew, BitVec.ofNat_add, ← hi.count b hb]
      exact Function.update_self ..
    · rw [if_neg hba, ← hi.count b hb]
      exact Function.update_of_ne hba ..
  · by_cases heq : Sum.inr b = member i path
    · -- the thread represents the group, where all members have arrived
      cases path with
      | nil => exact absurd heq (by simp [member])
      | cons c path =>
        obtain rfl : b = c := Sum.inr.inj heq
        have hall := hi.held b i hp.2.2.1.holder y hy
        rw [hp.2.2.1.turns] at hall
        rw [← heq] at harr
        refine le_trans ?_ (arrivals_le_arrive m _ y a)
        rw [arrivals_arrive, if_pos heq, ← heq, hall, harr]
    · rw [arrivals_arrive, if_neg heq]
      exact (hi.down b y hy).trans (arrivals_le_arrive m _ y a)
  · have hall := hi.held b j hj y hy
    have hne : y ≠ member i path := by
      rintro rfl
      rw [← members_unique hx hy, harr] at hall
      omega
    rw [arrivals_arrive, if_neg hne]
    exact hall

/-- The last member finds that all others have arrived. -/
theorem Inv.last (hs : Staffed g root names group) (hi : Inv g names group m) (ha : a ∈ names)
    (hx : x ∈ members g names group a) (harr : m.arrivals x = n) (hn : n ≤ m.turns a)
    (hlast : m.groups.count a = m.groups.k a - 1) :
    ∀ y ∈ members g names group a, (m.arrive x a).arrivals y = n + 1 := by
  have hresets := (hi.arrive_eq hx harr hn).2
  have hnew : x ∉ arrived g names group m a := by
    simp only [arrived, Finset.mem_filter, not_and]
    omega
  have hsub : Insert.insert x (arrived g names group m a) ⊆ members g names group a :=
    Finset.insert_subset hx (Finset.filter_subset _ _)
  have hle := Finset.card_le_card hsub
  have hbound := hs.card_le a ha
  rw [Finset.card_insert_of_notMem hnew] at hle
  have hcard : (members g names group a).card ≤
      (Insert.insert x (arrived g names group m a)).card := by
    rw [Finset.card_insert_of_notMem hnew]
    rw [hi.count a ha, hi.k_eq, hs.k a ha, ← BitVec.toNat_inj, BitVec.toNat_sub] at hlast
    simp only [BitVec.toNat_ofNat, BitVec.ofNat_eq_ofNat] at hlast
    omega
  intro y hy
  rw [← Finset.eq_of_subset_of_card_le hsub hcard, Finset.mem_insert] at hy
  rw [arrivals_arrive]
  split
  case isTrue => rw [harr]
  case isFalse hne =>
    have := (Finset.mem_filter.mp (hy.resolve_left hne)).2
    rwa [hresets] at this

/-- The last member of a group represents it. -/
theorem at_arrive_last (hs : Staffed g root names group) (hi : Inv g names group m)
    (h : At g names group i m (.arrive s n path a)) :
    At g names group i ((m.arrive (member i path) a).hold i a)
      (match m.groups.parent a with
        | some parent => .arrive s n (a :: path) parent
        | none => .reset s n path a) := by
  obtain ⟨⟨hsense, hle⟩, ha, hp, harr, hn⟩ := h
  have hx := hp.member_mem
  obtain ⟨hturns, hresets⟩ := hi.arrive_eq hx harr hn
  have hle' := arrivals_own (a := a) hle harr
  have hp' : Path g names group i ((m.arrive (member i path) a).hold i a) n path a := by
    refine hp.mono fun c hc hh => ⟨?_, hh.turns, hh.resets⟩
    exact (Function.update_of_ne (hp.ne hs hc) ..).trans hh.holder
  have hh : Held i ((m.arrive (member i path) a).hold i a) n a :=
    ⟨Function.update_self .., hturns, hresets⟩
  rw [hi.parent_eq]
  split
  case h_1 p hparent =>
    have hne : Sum.inr a ≠ member i path := by
      cases path with
      | nil => simp [member]
      | cons b path => exact fun heq => hp.ne hs List.mem_cons_self (Sum.inr.inj heq).symm
    have hup := hi.up a ha p hparent
    refine ⟨⟨hsense, hle'⟩, hs.parent_mem a ha p hparent, ⟨ha, hparent, hh, hp'⟩, ?_, ?_⟩
    · have hown : (m.arrive (member i path) a).arrivals (.inr a) = m.arrivals (.inr a) := by
        rw [arrivals_arrive, if_neg hne]
      have hdown := hi.down a _ hx
      have hge := (hi.arrivals p _ (inr_mem.mpr ⟨ha, hparent⟩)).1
      have hturns' := hi.turns_le p
      refine hown.trans ?_
      omega
    · exact hturns.ge.trans hup
  case h_2 hparent =>
    refine ⟨⟨hsense, hle'⟩, ha, hp', hh, fun p hp => ?_⟩
    rw [hparent] at hp
    exact absurd hp.symm (Option.some_ne_none p)

theorem arrive_step (hs : Staffed g root names group) (hi : Inv g names group m)
    (h : At g names group i m (.arrive s n path a)) :
    Inv g names group (act i m (.arrive s n path a)).1 ∧
      At g names group i (act i m (.arrive s n path a)).1 (act i m (.arrive s n path a)).2 := by
  have hlast := at_arrive_last hs hi h
  have hwait := at_arrive_wait h
  obtain ⟨-, ha, hp, harr, hn⟩ := h
  have hturns := (hi.arrive_eq hp.member_mem harr hn).1
  simp only [act]
  split
  case isTrue heq =>
    have hall := hi.last hs ha hp.member_mem harr hn heq
    exact ⟨(hi.arrive hp harr hn).hold fun x hx => (hall x hx).trans (by rw [← hturns]; rfl),
      hlast⟩
  case isFalse => exact ⟨hi.arrive hp harr hn, hwait⟩

theorem at_wait (hi : Inv g names group m) (h : At g names group i m (.wait s n path a)) :
    At g names group i m (act i m (.wait s n path a)).2 := by
  obtain ⟨⟨hs, hle⟩, ha, hp, harr, hn⟩ := h
  simp only [act]
  split
  case isTrue => exact ⟨⟨hs, hle⟩, ha, hp, harr, hn⟩
  case isFalse heq =>
    have hsense := hi.sense a ha
    rw [← not_not.mp heq, hs, sense_eq_iff] at hsense
    refine at_back hs hle hp (by omega) fun hnil => ?_
    rw [hnil] at harr
    exact harr

/-! ## Every run -/

theorem at_other_arrive {p : Pc γ} (hi : Inv g names group m)
    (h : At g names group i m (.arrive s n path a)) (hatj : At g names group j m p) (hj : j ≠ i) :
    At g names group j (act i m (.arrive s n path a)).1 p := by
  obtain ⟨-, ha, hp, harr, hn⟩ := h
  have hx := hp.member_mem
  have hturns := (hi.arrive_eq hx harr hn).1
  have hheld : ∀ b, m.holder b = some j → b ≠ a := by
    rintro b hb rfl
    have hall := hi.held b j hb _ hx
    omega
  have hown : member i path ≠ .inl j := by
    cases path with
    | nil => exact fun heq => hj (Sum.inl.inj heq).symm
    | cons b path => exact Sum.inr_ne_inl
  have hgroup : ∀ b, m.holder b = some j → member i path ≠ .inr b := by
    intro b hb heq
    cases path with
    | nil => exact Sum.inl_ne_inr heq
    | cons c path =>
      rw [← Sum.inr.inj heq, hp.2.2.1.holder] at hb
      exact hj (Option.some.inj hb).symm
  have harrivals : ∀ y, y ≠ member i path →
      (m.arrive (member i path) a).arrivals y = m.arrivals y := by
    intro y hy
    rw [arrivals_arrive, if_neg hy]
  simp only [act]
  split
  case isTrue =>
    exact hatj.other hheld (fun b hb => Function.update_of_ne hb ..) (fun _ _ => rfl)
      (fun _ _ => rfl) le_rfl harrivals hown hgroup
  case isFalse =>
    exact hatj.other hheld (fun _ _ => rfl) (fun _ _ => rfl) (fun _ _ => rfl) le_rfl harrivals hown
      hgroup

theorem invariant (hs : Staffed g root names group) :
    Threads.Invariant (Step group) (fun _ _ _ => True) (Inv g names group)
      (At g names group) where
  own {i m p m' p'} hstep _ hinv hat := by
    cases hstep with
    | call s n =>
      obtain ⟨hsense, harr, hn⟩ := hat
      exact ⟨hinv, ⟨hsense, by omega⟩, hs.group_mem i, rfl, harr, hn⟩
    | act h =>
      cases p with
      | idle => simp [Pc.started, Pc.returned] at h
      | arrive s n path a => exact arrive_step hs hinv hat
      | wait s n path a => exact ⟨hinv, at_wait hinv hat⟩
      | reset s n path a => exact ⟨hinv.reset hat.2.1 hat.2.2.2.1, at_reset hs hat⟩
      | load s n path a => exact ⟨hinv, at_load hinv hat⟩
      | turn s n path a old =>
        have hnext := at_turn hs hinv hat
        obtain ⟨-, -, -, ⟨-, hturns, hresets⟩, hrel, rfl⟩ := hat
        exact ⟨hinv.turn hturns hresets hrel, hnext⟩
  other {i m p m' p'} hstep _ hinv hat j q hj hatj := by
    cases hstep with
    | call s n => exact hatj
    | act h =>
      cases p with
      | idle => exact hatj
      | arrive s n path a => exact at_other_arrive hinv hat hatj hj
      | wait s n path a => exact hatj
      | reset s n path a =>
        exact hatj.other (x := .inl i) (not_held hat.2.2.2.1.holder hj) (fun _ _ => rfl)
          (fun b hb => Function.update_of_ne hb ..) (fun _ _ => rfl) le_rfl (fun _ _ => rfl)
          (fun heq => hj (Sum.inl.inj heq).symm) fun _ _ => Sum.inl_ne_inr
      | load s n path a => exact hatj
      | turn s n path a old =>
        exact hatj.other (x := .inl i) (not_held hat.2.2.2.1.1 hj)
          (fun b hb => Function.update_of_ne hb ..) (fun _ _ => rfl)
          (fun b hb => Function.update_of_ne hb ..) (turns_le_turn m a a (~~~ old))
          (fun _ _ => rfl) (fun heq => hj (Sum.inl.inj heq).symm) fun _ _ => Sum.inl_ne_inr

theorem Staffed.separates (hs : Staffed g root names group) (hcount : ∀ a ∈ names, g.count a = 0)
    (hsense : ∀ a ∈ names, g.sense a = 0) {s : Threads.System (Mem γ ι) (Pc γ) ι}
    (hr : Threads.System.Reachable (Step group) (fun _ _ _ => True)
      ⟨start g, fun _ => .idle (~~~ 0) 0⟩ s) (i j : ι) :
    (s.pc i).returned ≤ (s.pc j).started := by
  obtain ⟨hinv, hat⟩ := (invariant hs).reachable hr (fun _ => trivial) (start_inv hcount hsense)
    fun i => ⟨rfl, rfl, Nat.zero_le _⟩
  calc (s.pc i).returned ≤ s.mem.turns (group i) := (hat i).2.returned_le
    _ ≤ s.mem.turns root := hinv.le_root hs (hs.group_mem i) rfl
    _ ≤ s.mem.arrivals (.inl j) := hinv.root_le hs (hs.group_mem j) rfl (inl_mem.mpr rfl)
    _ ≤ (s.pc j).started := (hat j).2.le_started

/-- The groups form a binary tree with the initial group as its root, in which every group waits
for its own threads and its children, and no thread returns from a call before every other one has
started the call with the same number. -/
theorem combining_separates (g : Groups γ) (root : γ) (calls : List (γ × BitVec 32))
    (hnodup : (root :: calls.map Prod.fst).Nodup) {fuel : Nat} (hfuel : calls.length < fuel) :
    ∃ g', groupInits fuel root calls (init root g) = some g' ∧
      IsTree g' root ((root, 0) :: calls) ∧
      ∀ group : ι → γ, (∀ i, group i ∈ calls.map Prod.fst) →
        (∀ c ∈ calls, (Finset.univ.filter (group · = c.1)).card = c.2.toNat) →
        (∀ c ∈ calls, c.2.toNat + (children g' c.1).card ≤ 2 ^ 32) →
        ∀ s : Threads.System (Mem γ ι) (Pc γ) ι,
          Threads.System.Reachable (Step group) (fun _ _ _ => True)
            ⟨start g', fun _ => .idle (~~~ 0) 0⟩ s →
          ∀ i j, (s.pc i).returned ≤ (s.pc j).started := by
  have hlength : [(root, (0 : BitVec 32))].length + calls.length ≤ fuel := by
    rw [List.length_singleton]
    omega
  obtain ⟨g', hg', ht⟩ := groupInits_spec (isTree_init g root) hnodup hlength
  refine ⟨g', hg', ht, fun group hgroup hcard hle s hr => ?_⟩
  have hroot : ∀ i, group i ≠ root := fun i heq =>
    (List.nodup_cons.mp hnodup).1 (heq ▸ hgroup i)
  refine (ht.staffed (fun i => List.mem_cons_of_mem _ (hgroup i)) (fun c hc => ?_)
    fun c hc => ?_).separates ht.count ht.sense hr
  · rcases List.mem_cons.mp hc with rfl | hc
    · rw [Finset.filter_false_of_mem fun i _ => hroot i]
      rfl
    · exact hcard c hc
  · rcases List.mem_cons.mp hc with rfl | hc
    · have := card_children_le g' root
      simp only [BitVec.ofNat_eq_ofNat, BitVec.toNat_ofNat]
      omega
    · exact hle c hc

omit [Fintype ι] in
/-- A thread makes `n` accesses in a row. -/
theorem reachable_acts {s₀ s : Threads.System (Mem γ ι) (Pc γ) ι}
    (hr : Threads.System.Reachable (Step group) (fun _ _ _ => True) s₀ s) (i : ι) (n : Nat) :
    Threads.System.Reachable (Step group) (fun _ _ _ => True) s₀ (s.acts act i n) := by
  refine hr.acts i n (fun k _ m p _ _ => ?_) fun _ _ _ => trivial
  cases p with
  | idle => exact .inl rfl
  | arrive | wait | reset | load | turn => exact .inr (.act rfl)

/-- Groups in memory that holds zeros. -/
def zeroed : Groups Nat :=
  ⟨fun _ => 0, fun _ => 0, fun _ => 0, fun _ => none, fun _ => none, fun _ => none, fun _ => none⟩

/-- Groups that a root `0` and groups with numbers of threads make. -/
def build (calls : List (Nat × BitVec 32)) : Groups Nat :=
  (groupInits (calls.length + 1) 0 calls (init 0 zeroed)).getD zeroed

theorem build_eq (calls : List (Nat × BitVec 32)) (h : (0 :: calls.map Prod.fst).Nodup) :
    groupInits (calls.length + 1) 0 calls (init 0 zeroed) = some (build calls) := by
  have hlength : [(0, (0 : BitVec 32))].length + calls.length ≤ calls.length + 1 := by
    rw [List.length_singleton, Nat.add_comm]
  obtain ⟨g, hg, -⟩ := groupInits_spec (isTree_init zeroed 0) h hlength
  rw [build, hg, Option.getD_some]

/-- Two groups with one thread each, where the second one has returned from its first call. -/
theorem combining_separates_two :
    ∃ g', groupInits 3 0 [(1, 1), (2, 1)] (init 0 zeroed) = some g' ∧
      ∃ s : Threads.System (Mem Nat Bool) (Pc Nat) Bool,
        Threads.System.Reachable (Step (bif · then 2 else 1)) (fun _ _ _ => True)
          ⟨start g', fun _ => .idle (~~~ 0) 0⟩ s ∧
        (s.pc true).returned = 1 ∧ 1 ≤ (s.pc false).started := by
  obtain ⟨g', hg', -, hall⟩ := combining_separates (ι := Bool) zeroed 0 [(1, 1), (2, 1)]
    (by decide) (show [(1, 1), (2, (1 : BitVec 32))].length < 3 by decide)
  have heq : g' = build [(1, 1), (2, 1)] :=
    Option.some.inj (hg'.symm.trans (build_eq [(1, 1), (2, 1)] (by decide)))
  rw [heq] at hg' hall
  have hsep := hall (bif · then 2 else 1) (by decide) (by decide) (by decide +kernel)
  have h₁ := (Relation.ReflTransGen.refl (r := Threads.System.Step (Step (bif · then 2 else 1))
    (fun _ _ _ => True)) (a := (⟨start (build [(1, 1), (2, 1)]), fun _ => .idle (~~~ 0) 0⟩ :
      Threads.System (Mem Nat Bool) (Pc Nat) Bool))).tail (.run false (.call _ (~~~ 0) 0)
        fun _ => trivial)
  have h₂ := reachable_acts h₁ false 2
  have h₃ := reachable_acts (h₂.tail (.run true (.call _ (~~~ 0) 0) fun _ => trivial)) true 8
  have hfirst : ∀ s : Threads.System (Mem Nat Bool) (Pc Nat) Bool,
      Threads.System.Reachable (Step (bif · then 2 else 1)) (fun _ _ _ => True)
        ⟨start (build [(1, 1), (2, 1)]), fun _ => .idle (~~~ 0) 0⟩ s →
      (s.pc true).returned = 1 → 1 ≤ (s.pc false).started :=
    fun s hr h => h ▸ hsep s hr true false
  have hstarted := hfirst _ h₃
  exact ⟨_, hg', _, h₃, by decide +kernel, hstarted (by decide +kernel)⟩

/-- Two groups below the root, and two below the first one of them, which has as many threads as fit
into a word. -/
def crowd : List (Nat × BitVec 32) := [(1, 4294967295), (2, 1), (3, 1), (4, 1)]

/-- The groups of the threads. -/
def crowdGroup : Fin 4294967295 ⊕ Fin 3 → Nat := Sum.elim (fun _ => 1) fun t => t + 2

/-- In a group with threads of two kinds the numbers of both add up. -/
theorem card_sumElim (N : Nat) (f : Fin 3 → Nat) (a : Nat) :
    (Finset.univ.filter (Sum.elim (fun _ : Fin N => 1) f · = a)).card =
      (if 1 = a then N else 0) + (Finset.univ.filter (f · = a)).card := by
  have hsum : (∑ _ : Fin N, if 1 = a then 1 else 0) = if 1 = a then N else 0 := by
    split <;> simp
  rw [Finset.card_filter, Fintype.sum_sum_type, Finset.card_filter]
  exact congrArg (· + _) hsum

/-- The threads and children of the first group do not fit into a word. Its first thread does not
wait for the others, and the thread of the second group returns before they have started. -/
theorem combining_unseparated :
    ∃ g, groupInits 5 0 crowd (init 0 zeroed) = some g ∧
      (g.k 1).toNat ≠ 4294967295 + (children g 1).card ∧
      (∀ i, crowdGroup i ∈ crowd.map Prod.fst) ∧
      (∀ c ∈ crowd, (Finset.univ.filter (crowdGroup · = c.1)).card = c.2.toNat) ∧
      ∃ s : Threads.System (Mem Nat (Fin 4294967295 ⊕ Fin 3)) (Pc Nat) (Fin 4294967295 ⊕ Fin 3),
        Threads.System.Reachable (Step crowdGroup) (fun _ _ _ => True)
          ⟨start g, fun _ => .idle (~~~ 0) 0⟩ s ∧
        ¬ ∀ i j, (s.pc i).returned ≤ (s.pc j).started := by
  have hg : groupInits 5 0 crowd (init 0 zeroed) = some (build crowd) :=
    build_eq crowd (by decide)
  have h₁ := (Relation.ReflTransGen.refl (r := Threads.System.Step (Step crowdGroup)
    (fun _ _ _ => True)) (a := (⟨start (build crowd), fun _ => .idle (~~~ 0) 0⟩ :
      Threads.System (Mem Nat (Fin 4294967295 ⊕ Fin 3)) (Pc Nat) (Fin 4294967295 ⊕ Fin 3)))).tail
        (.run (.inl 0) (.call _ (~~~ 0) 0) fun _ => trivial)
  have h₂ := reachable_acts h₁ (.inl 0) 2
  have h₃ := reachable_acts (h₂.tail (.run (.inr 0) (.call _ (~~~ 0) 0) fun _ => trivial))
    (.inr 0) 8
  have hahead : ∀ s : Threads.System (Mem Nat (Fin 4294967295 ⊕ Fin 3)) (Pc Nat)
      (Fin 4294967295 ⊕ Fin 3), (s.pc (.inr 0)).returned = 1 → (s.pc (.inl 1)).started = 0 →
      ¬ ∀ i j, (s.pc i).returned ≤ (s.pc j).started := by
    intro s h h' hall
    have := hall (.inr 0) (.inl 1)
    omega
  refine ⟨_, hg, by decide +kernel, ?_, ?_, _, h₃,
    hahead _ (by decide +kernel) (by decide +kernel)⟩
  · rintro (t | t)
    · exact List.mem_cons_self
    · revert t
      decide
  · intro c hc
    refine (card_sumElim 4294967295 (fun t => t + 2) c.1).trans ?_
    revert c
    decide

end ConcurrencyKit.Barrier.Combining
