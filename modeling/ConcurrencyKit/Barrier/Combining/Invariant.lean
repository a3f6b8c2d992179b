import ConcurrencyKit.Barrier.Combining.Tree
import Mathlib.Data.Finset.Sum
import Mathlib.Data.Fintype.Card

/-!
# How far the members of a combining tree barrier may be ahead

The members of a group are its threads and the groups below it. Since its count has been cleared,
each of them has arrived once at most. A thread that represents a group knows that all members have
arrived there, and a thread that returns from a group knows that it has been turned. The root has
been turned at least as often as every group, and no more often than every member of every group
has arrived.
-/

namespace ConcurrencyKit.Barrier.Combining

variable {γ ι : Type}

/-! ## What a thread knows -/

/-- Thread `i` represents a group in the call after `n`, and has not cleared its count yet. -/
structure Held (i : ι) (m : Mem γ ι) (n : Nat) (a : γ) : Prop where
  holder : m.holder a = some i
  turns : m.turns a = n
  resets : m.resets a = n

/-- Thread `i` represents the groups on a path from its own group up to a child of `a`. -/
def Path (g : Groups γ) (names : List γ) (group : ι → γ) (i : ι) (m : Mem γ ι) (n : Nat) :
    List γ → γ → Prop
  | [], a => group i = a
  | b :: path, a =>
    b ∈ names ∧ g.parent b = some a ∧ Held i m n b ∧ Path g names group i m n path b

variable {g : Groups γ} {root a b c : γ} {names path : List γ} {group : ι → γ} {x y : ι ⊕ γ}
  {i j : ι} {m m' : Mem γ ι} {n : Nat} {s : BitVec 32} {groups : List (γ × BitVec 32)}

/-- The parent of a group has been turned in the call after `n`, if there is one. -/
def Released (g : Groups γ) (m : Mem γ ι) (n : Nat) (a : γ) : Prop :=
  ∀ p, g.parent a = some p → n < m.turns p

/-- What the program counter of a thread says about the memory. -/
def At (g : Groups γ) (names : List γ) (group : ι → γ) (i : ι) (m : Mem γ ι) : Pc γ → Prop
  | .idle s n => s = sense n ∧ m.arrivals (.inl i) = n ∧ n ≤ m.turns (group i)
  | .arrive s n path a =>
    (s = sense n ∧ m.arrivals (.inl i) ≤ n + 1) ∧ a ∈ names ∧ Path g names group i m n path a ∧
      m.arrivals (member i path) = n ∧ n ≤ m.turns a
  | .wait s n path a =>
    (s = sense n ∧ m.arrivals (.inl i) ≤ n + 1) ∧ a ∈ names ∧ Path g names group i m n path a ∧
      m.arrivals (member i path) = n + 1 ∧ n ≤ m.turns a
  | .reset s n path a =>
    (s = sense n ∧ m.arrivals (.inl i) ≤ n + 1) ∧ a ∈ names ∧ Path g names group i m n path a ∧
      Held i m n a ∧ Released g m n a
  | .load s n path a =>
    (s = sense n ∧ m.arrivals (.inl i) ≤ n + 1) ∧ a ∈ names ∧ Path g names group i m n path a ∧
      (m.holder a = some i ∧ m.turns a = n ∧ m.resets a = n + 1) ∧ Released g m n a
  | .turn s n path a old =>
    (s = sense n ∧ m.arrivals (.inl i) ≤ n + 1) ∧ a ∈ names ∧ Path g names group i m n path a ∧
      (m.holder a = some i ∧ m.turns a = n ∧ m.resets a = n + 1) ∧ Released g m n a ∧
        old = sense (n + 1)

theorem Path.mono (h : Path g names group i m n path a)
    (hheld : ∀ c ∈ path, Held i m n c → Held i m' n c) : Path g names group i m' n path a := by
  induction path generalizing a with
  | nil => exact h
  | cons b path ih =>
    obtain ⟨hb, hparent, hheld', hpath⟩ := h
    exact ⟨hb, hparent, hheld b List.mem_cons_self hheld',
      ih hpath fun c hc => hheld c (List.mem_cons_of_mem b hc)⟩

/-- The own group of the thread has been turned in the calls before. -/
theorem Path.le (h : Path g names group i m n path a) (hle : n ≤ m.turns a) :
    n ≤ m.turns (group i) := by
  induction path generalizing a with
  | nil => exact (show group i = a from h).symm ▸ hle
  | cons b path ih => exact ih h.2.2.2 h.2.2.1.turns.ge

/-- What a thread knows stays true when others go on. -/
theorem At.mono {p : Pc γ} (h : At g names group j m p)
    (hturns : ∀ a, m.turns a ≤ m'.turns a)
    (hheld : ∀ a, m.holder a = some j → m'.holder a = some j ∧ m'.turns a = m.turns a ∧
      m'.resets a = m.resets a ∧ m'.arrivals (.inr a) = m.arrivals (.inr a))
    (hown : m'.arrivals (.inl j) = m.arrivals (.inl j)) : At g names group j m' p := by
  have hheld' : ∀ {n a}, Held j m n a → Held j m' n a := by
    intro n a h
    obtain ⟨hholder, hturns', hresets, -⟩ := hheld a h.holder
    exact ⟨hholder, hturns'.trans h.turns, hresets.trans h.resets⟩
  have hpath : ∀ {n path a}, Path g names group j m n path a →
      Path g names group j m' n path a := fun h => h.mono fun c _ => hheld'
  have hmember : ∀ {n path a}, Path g names group j m n path a →
      m'.arrivals (member j path) = m.arrivals (member j path) := by
    intro n path a h
    cases path with
    | nil => exact hown
    | cons b path => exact (hheld b h.2.2.1.holder).2.2.2
  have hreleased : ∀ {n a}, Released g m n a → Released g m' n a :=
    fun h p hp => (h p hp).trans_le (hturns p)
  cases p with
  | idle s n => exact ⟨h.1, hown.trans h.2.1, h.2.2.trans (hturns _)⟩
  | arrive s n path a =>
    obtain ⟨⟨hs, hle⟩, ha, hp, harr, hn⟩ := h
    exact ⟨⟨hs, hown ▸ hle⟩, ha, hpath hp, (hmember hp).trans harr, hn.trans (hturns a)⟩
  | wait s n path a =>
    obtain ⟨⟨hs, hle⟩, ha, hp, harr, hn⟩ := h
    exact ⟨⟨hs, hown ▸ hle⟩, ha, hpath hp, (hmember hp).trans harr, hn.trans (hturns a)⟩
  | reset s n path a =>
    obtain ⟨⟨hs, hle⟩, ha, hp, hh, hrel⟩ := h
    exact ⟨⟨hs, hown ▸ hle⟩, ha, hpath hp, hheld' hh, hreleased hrel⟩
  | load s n path a =>
    obtain ⟨⟨hs, hle⟩, ha, hp, ⟨hholder, ht, hr⟩, hrel⟩ := h
    obtain ⟨hholder', ht', hr', -⟩ := hheld a hholder
    exact ⟨⟨hs, hown ▸ hle⟩, ha, hpath hp, ⟨hholder', ht'.trans ht, hr'.trans hr⟩, hreleased hrel⟩
  | turn s n path a old =>
    obtain ⟨⟨hs, hle⟩, ha, hp, ⟨hholder, ht, hr⟩, hrel, hold⟩ := h
    obtain ⟨hholder', ht', hr', -⟩ := hheld a hholder
    exact ⟨⟨hs, hown ▸ hle⟩, ha, hpath hp, ⟨hholder', ht'.trans ht, hr'.trans hr⟩, hreleased hrel,
      hold⟩

/-- A thread returns from a group that has been turned in the call. -/
theorem at_back (hs : s = sense n) (hle : m.arrivals (.inl i) ≤ n + 1)
    (hp : Path g names group i m n path a) (hn : n < m.turns a)
    (harr : path = [] → m.arrivals (.inl i) = n + 1) :
    At g names group i m (.back s n path) := by
  cases path with
  | nil =>
    have hgroup : group i = a := hp
    exact ⟨by rw [hs, not_sense], harr rfl, hgroup.symm ▸ hn⟩
  | cons b path =>
    obtain ⟨hb, hparent, hh, hp⟩ := hp
    refine ⟨⟨hs, hle⟩, hb, hp, hh, fun p hp' => ?_⟩
    rwa [← Option.some.inj (hparent.symm.trans hp')]

theorem not_held (hh : m.holder a = some i) (hj : j ≠ i) : ∀ b, m.holder b = some j → b ≠ a := by
  rintro b hb rfl
  exact hj (Option.some.inj (hb.symm.trans hh))

theorem At.returned_le {p : Pc γ} (h : At g names group i m p) :
    p.returned ≤ m.turns (group i) := by
  cases p with
  | idle s n => exact h.2.2
  | arrive s n path a | wait s n path a => exact h.2.2.1.le h.2.2.2.2
  | reset s n path a => exact h.2.2.1.le h.2.2.2.1.turns.ge
  | load s n path a | turn s n path a old => exact h.2.2.1.le h.2.2.2.1.2.1.ge

theorem At.le_started {p : Pc γ} (h : At g names group i m p) :
    m.arrivals (.inl i) ≤ p.started := by
  cases p with
  | idle s n => exact h.2.1.le
  | arrive | wait | reset | load | turn => exact h.1.2

/-! ## Counters -/

variable [DecidableEq γ]

theorem turns_turn (m : Mem γ ι) (a b : γ) (v : BitVec 32) :
    (m.turn a v).turns b = if b = a then m.turns a + 1 else m.turns b :=
  Function.update_apply ..

theorem turns_le_turn (m : Mem γ ι) (a b : γ) (v : BitVec 32) :
    m.turns b ≤ (m.turn a v).turns b :=
  le_update_succ m.turns a b

/-- A step in which a thread changes only what its own groups hold. -/
theorem At.other {p : Pc γ} (h : At g names group j m p)
    (hheld : ∀ b, m.holder b = some j → b ≠ a)
    (hholder : ∀ b, b ≠ a → m'.holder b = m.holder b)
    (hresets : ∀ b, b ≠ a → m'.resets b = m.resets b)
    (hturns : ∀ b, b ≠ a → m'.turns b = m.turns b) (hle : m.turns a ≤ m'.turns a)
    (harr : ∀ y, y ≠ x → m'.arrivals y = m.arrivals y) (hown : x ≠ .inl j)
    (hgroup : ∀ b, m.holder b = some j → x ≠ .inr b) : At g names group j m' p := by
  refine h.mono (fun b => ?_) (fun b hb => ?_) (harr _ (Ne.symm hown))
  · by_cases hb : b = a
    · exact hb ▸ hle
    · exact (hturns b hb).ge
  · have hne := hheld b hb
    exact ⟨(hholder b hne).trans hb, hturns b hne, hresets b hne, harr _ (Ne.symm (hgroup b hb))⟩

theorem card_children_le (g : Groups γ) (a : γ) : (children g a).card ≤ 2 := by
  have hle : ∀ o : Option γ, o.toFinset.card ≤ 1 := by
    intro o
    cases o <;> simp
  exact (Finset.card_union_le _ _).trans (Nat.add_le_add (hle _) (hle _))

section Arrivals

variable [DecidableEq ι]

theorem arrivals_arrive (m : Mem γ ι) (x y : ι ⊕ γ) (a : γ) :
    (m.arrive x a).arrivals y = if y = x then m.arrivals x + 1 else m.arrivals y :=
  Function.update_apply ..

theorem arrivals_le_arrive (m : Mem γ ι) (x y : ι ⊕ γ) (a : γ) :
    m.arrivals y ≤ (m.arrive x a).arrivals y :=
  le_update_succ m.arrivals x y

theorem arrivals_own (hle : m.arrivals (.inl i) ≤ n + 1) (harr : m.arrivals x = n) :
    (m.arrive x a).arrivals (.inl i) ≤ n + 1 := by
  rw [arrivals_arrive]
  split
  case isTrue => rw [harr]
  case isFalse => exact hle

theorem at_arrive_wait (h : At g names group i m (.arrive s n path a)) :
    At g names group i (m.arrive (member i path) a) (.wait s n path a) := by
  obtain ⟨⟨hs, hle⟩, ha, hp, harr, hn⟩ := h
  refine ⟨⟨hs, arrivals_own hle harr⟩, ha, hp.mono fun c _ hh => ⟨hh.holder, hh.turns, hh.resets⟩,
    ?_, hn⟩
  rw [arrivals_arrive, if_pos rfl, harr]

end Arrivals

/-! ## Members -/

variable [Fintype ι]

/-- The threads of a group and the groups below it. -/
def members (g : Groups γ) (names : List γ) (group : ι → γ) (a : γ) : Finset (ι ⊕ γ) :=
  (Finset.univ.filter (group · = a)).disjSum (names.toFinset.filter (g.parent · = some a))

/-- What the barrier relies on. The groups have parents up to the root, and wait for as many threads
as they have members. -/
structure Staffed (g : Groups γ) (root : γ) (names : List γ) (group : ι → γ) : Prop where
  group_mem : ∀ i, group i ∈ names
  parent_mem : ∀ a ∈ names, ∀ p, g.parent a = some p → p ∈ names
  parent_lt : ∀ a ∈ names, ∀ p, g.parent a = some p → names.idxOf p < names.idxOf a
  parent : ∀ a ∈ names, a ≠ root → ∃ p, g.parent a = some p
  k : ∀ a ∈ names, g.k a = BitVec.ofNat 32 (members g names group a).card
  card_le : ∀ a ∈ names, (members g names group a).card ≤ 2 ^ 32

theorem inl_mem : .inl i ∈ members g names group a ↔ group i = a := by
  simp [members]

theorem inr_mem : .inr b ∈ members g names group a ↔ b ∈ names ∧ g.parent b = some a := by
  simp [members]

/-- A member is in one group only. -/
theorem members_unique (hx : x ∈ members g names group a) (hy : x ∈ members g names group b) :
    a = b := by
  cases x with
  | inl i => exact (inl_mem.mp hx).symm.trans (inl_mem.mp hy)
  | inr c => exact Option.some.inj ((inr_mem.mp hx).2.symm.trans (inr_mem.mp hy).2)

/-! ## The invariant -/

/-- The members that have arrived at a group since its count has been cleared. -/
def arrived (g : Groups γ) (names : List γ) (group : ι → γ) (m : Mem γ ι) (a : γ) :
    Finset (ι ⊕ γ) :=
  (members g names group a).filter fun x => m.arrivals x = m.resets a + 1

/-- The counts and senses of the groups, and how far one group may be ahead of another one. -/
structure Inv (g : Groups γ) (names : List γ) (group : ι → γ) (m : Mem γ ι) : Prop where
  k_eq : m.groups.k = g.k
  parent_eq : m.groups.parent = g.parent
  turns_le : ∀ a, m.turns a ≤ m.resets a
  arrivals : ∀ a, ∀ x ∈ members g names group a,
    m.resets a ≤ m.arrivals x ∧ m.arrivals x ≤ m.resets a + 1
  count : ∀ a ∈ names, m.groups.count a = BitVec.ofNat 32 (arrived g names group m a).card
  sense : ∀ a ∈ names, m.groups.sense a = sense (m.turns a + 1)
  up : ∀ b ∈ names, ∀ a, g.parent b = some a → m.turns b ≤ m.turns a
  down : ∀ b, ∀ x ∈ members g names group b, m.arrivals (.inr b) ≤ m.arrivals x
  held : ∀ a i, m.holder a = some i → ∀ x ∈ members g names group a,
    m.arrivals x = m.turns a + 1

/-! ## Paths and members -/

theorem Path.member_mem (h : Path g names group i m n path a) :
    member i path ∈ members g names group a := by
  cases path with
  | nil => exact inl_mem.mpr h
  | cons b path => exact inr_mem.mpr ⟨h.1, h.2.1⟩

/-- The groups on the path are further from the root. -/
theorem Path.lt (hs : Staffed g root names group) (h : Path g names group i m n path a) :
    ∀ c ∈ path, names.idxOf a < names.idxOf c := by
  induction path generalizing a with
  | nil => exact fun c hc => absurd hc List.not_mem_nil
  | cons b path ih =>
    obtain ⟨hb, hparent, -, hpath⟩ := h
    have hlt := hs.parent_lt b hb a hparent
    intro c hc
    rcases List.mem_cons.mp hc with rfl | hc
    · exact hlt
    · exact hlt.trans (ih hpath c hc)

theorem Path.ne (hs : Staffed g root names group) (h : Path g names group i m n path a)
    (hc : c ∈ path) : c ≠ a := by
  rintro rfl
  exact lt_irrefl _ (h.lt hs c hc)

/-! ## The root -/

theorem start_inv (hcount : ∀ a ∈ names, g.count a = 0) (hsense : ∀ a ∈ names, g.sense a = 0) :
    Inv g names group (start g : Mem γ ι) where
  k_eq := rfl
  parent_eq := rfl
  turns_le _ := le_rfl
  arrivals _ _ _ := ⟨le_rfl, Nat.zero_le _⟩
  count a ha := by
    have hempty : arrived g names group (start g) a = ∅ :=
      Finset.filter_eq_empty_iff.mpr fun x _ => Nat.zero_ne_one
    rw [hempty]
    exact hcount a ha
  sense a ha := hsense a ha
  up _ _ _ _ := le_rfl
  down _ _ _ := le_rfl
  held _ _ h := absurd h.symm (Option.some_ne_none _)

/-- A group has been turned no more often than the root. -/
theorem Inv.le_root (hs : Staffed g root names group) (hi : Inv g names group m) {d : Nat}
    (ha : a ∈ names) (hd : names.idxOf a = d) : m.turns a ≤ m.turns root := by
  induction d using Nat.strong_induction_on generalizing a with
  | _ d ih =>
    by_cases hroot : a = root
    · rw [hroot]
    · obtain ⟨p, hparent⟩ := hs.parent a ha hroot
      have hp := hs.parent_mem a ha p hparent
      exact (hi.up a ha p hparent).trans (ih _ (hd ▸ hs.parent_lt a ha p hparent) hp rfl)

/-- A member has arrived at its group at least as often as the root has been turned. -/
theorem Inv.root_le (hs : Staffed g root names group) (hi : Inv g names group m) {d : Nat}
    (ha : a ∈ names) (hd : names.idxOf a = d) (hx : x ∈ members g names group a) :
    m.turns root ≤ m.arrivals x := by
  induction d using Nat.strong_induction_on generalizing a x with
  | _ d ih =>
    by_cases hroot : a = root
    · rw [← hroot]
      exact (hi.turns_le a).trans (hi.arrivals a x hx).1
    · obtain ⟨p, hparent⟩ := hs.parent a ha hroot
      have hp := hs.parent_mem a ha p hparent
      exact (ih _ (hd ▸ hs.parent_lt a ha p hparent) hp rfl (inr_mem.mpr ⟨ha, hparent⟩)).trans
        (hi.down a x hx)

/-! ## The tree that the calls build -/

/-- The groups below a group are its children. -/
theorem card_members (ht : IsTree g root groups) (ha : a ∈ groups.map Prod.fst) :
    (members g (groups.map Prod.fst) group a).card =
      (Finset.univ.filter (group · = a)).card + (children g a).card := by
  have hchildren : (groups.map Prod.fst).toFinset.filter (g.parent · = some a) =
      children g a := by
    ext b
    rw [Finset.mem_filter, List.mem_toFinset]
    constructor
    · rintro ⟨hb, hparent⟩
      obtain ⟨n, hn⟩ := List.mem_iff_getElem?.mp hb
      have hroot : b ≠ root := by
        rintro rfl
        rw [ht.parent_root] at hparent
        exact Option.some_ne_none _ hparent.symm
      obtain ⟨p, -, hparent', hmem⟩ := ht.parent n b hn hroot
      rwa [Option.some.inj (hparent.symm.trans hparent')]
    · exact fun hb => ht.child a ha b hb
  rw [members, Finset.card_disjSum, hchildren]

theorem IsTree.staffed (ht : IsTree g root groups) (hgroup : ∀ i, group i ∈ groups.map Prod.fst)
    (hcard : ∀ c ∈ groups, (Finset.univ.filter (group · = c.1)).card = c.2.toNat)
    (hle : ∀ c ∈ groups, c.2.toNat + (children g c.1).card ≤ 2 ^ 32) :
    Staffed g root (groups.map Prod.fst) group := by
  have hparent : ∀ a ∈ groups.map Prod.fst, a ≠ root → ∃ p ∈ groups.map Prod.fst,
      g.parent a = some p ∧ (groups.map Prod.fst).idxOf p < (groups.map Prod.fst).idxOf a := by
    intro a ha hroot
    obtain ⟨n, hn⟩ := List.mem_iff_getElem?.mp ha
    obtain ⟨p, hp, hparent, -⟩ := ht.parent n a hn hroot
    have hmem := List.mem_of_mem_take hp
    obtain ⟨hlt, rfl⟩ := List.getElem?_eq_some_iff.mp hn
    rw [ht.nodup.idxOf_getElem]
    exact ⟨p, hmem, hparent, (List.mem_take_iff_idxOf_lt hmem).mp hp⟩
  have hroot : ∀ {a p}, g.parent a = some p → a ≠ root := by
    rintro a p hp rfl
    rw [ht.parent_root] at hp
    exact Option.some_ne_none _ hp.symm
  refine ⟨hgroup, fun a ha p hp => ?_, fun a ha p hp => ?_, fun a ha h => ?_, fun a ha => ?_,
    fun a ha => ?_⟩
  · obtain ⟨p', hmem, hp', -⟩ := hparent a ha (hroot hp)
    rwa [Option.some.inj (hp.symm.trans hp')]
  · obtain ⟨p', -, hp', hlt⟩ := hparent a ha (hroot hp)
    rwa [Option.some.inj (hp.symm.trans hp')]
  · obtain ⟨p, -, hp, -⟩ := hparent a ha h
    exact ⟨p, hp⟩
  · obtain ⟨c, hc, rfl⟩ := List.mem_map.mp ha
    rw [card_members ht ha, hcard c hc, ht.k c hc, BitVec.ofNat_add, BitVec.ofNat_toNat,
      BitVec.setWidth_eq]
  · obtain ⟨c, hc, rfl⟩ := List.mem_map.mp ha
    rw [card_members ht ha, hcard c hc]
    exact hle c hc

end ConcurrencyKit.Barrier.Combining
