import ConcurrencyKit.Barrier.Combining.Model
import Mathlib.Data.Finset.Option
import Mathlib.Data.Finset.Card

/-!
# The groups of a combining tree barrier form a tree

The loop of `ck_barrier_combining_group_init` goes through the groups level by level. Its queue
holds the children of the groups that it has passed, so that it meets no group twice, and there are
more groups in the queue than it has passed. So it finds a group with a free pointer.
-/

namespace ConcurrencyKit.Barrier.Combining

variable {γ : Type} [DecidableEq γ]

/-- The groups that the pointers of a group lead to. -/
def children (g : Groups γ) (a : γ) : Finset γ := (g.left a).toFinset ∪ (g.right a).toFinset

/-- The groups, with the numbers of their threads, form a binary tree in the order in which they
have been initialized. Every group but the root is one child of one group before it, and waits for
its own threads and its children. -/
structure IsTree (g : Groups γ) (root : γ) (groups : List (γ × BitVec 32)) : Prop where
  nodup : (groups.map Prod.fst).Nodup
  root_mem : root ∈ groups.map Prod.fst
  parent_root : g.parent root = none
  parent : ∀ n a, (groups.map Prod.fst)[n]? = some a → a ≠ root →
    ∃ p ∈ (groups.map Prod.fst).take n, g.parent a = some p ∧ a ∈ children g p
  child : ∀ p ∈ groups.map Prod.fst, ∀ a ∈ children g p,
    a ∈ groups.map Prod.fst ∧ g.parent a = some p
  distinct : ∀ p ∈ groups.map Prod.fst, ∀ a, g.left p = some a → g.right p ≠ some a
  k : ∀ c ∈ groups, g.k c.1 = c.2 + BitVec.ofNat 32 (children g c.1).card
  count : ∀ p ∈ groups.map Prod.fst, g.count p = 0
  sense : ∀ p ∈ groups.map Prod.fst, g.sense p = 0

variable {g : Groups γ} {root tnode a x : γ} {groups : List (γ × BitVec 32)} {nthr : BitVec 32}

/-! ## The queue -/

/-- From a pointer on, the pointers `next` lead through the groups, and no further. -/
def Chain (next : γ → Option γ) : Option γ → List γ → Prop
  | d, [] => d = none
  | d, a :: l => d = some a ∧ Chain next (next a) l

/-- A queue holds groups. -/
structure Holds (next : γ → Option γ) (queue : Queue γ) (l : List γ) : Prop where
  chain : Chain next queue.head l
  tail : ∀ a ∈ l.getLast?, queue.tail = some a

variable {next : γ → Option γ} {queue : Queue γ} {l : List γ}

/-- A pointer of a group that is not in a chain does not matter. -/
theorem Chain.update {d v : Option γ} (h : Chain next d l) (hx : x ∉ l) :
    Chain (Function.update next x v) d l := by
  induction l generalizing d with
  | nil => exact h
  | cons b l ih =>
    have hb : b ≠ x := fun heq => hx (heq ▸ List.mem_cons_self)
    refine ⟨h.1, ?_⟩
    rw [Function.update_of_ne hb]
    exact ih h.2 fun hmem => hx (List.mem_cons_of_mem b hmem)

/-- A group that ends the chain comes after the last one of a chain. -/
theorem Chain.concat {d : Option γ} (h : Chain next d (l ++ [a])) (hl : (l ++ [a]).Nodup)
    (hax : a ≠ x) (hx : next x = none) :
    Chain (Function.update next a (some x)) d (l ++ [a] ++ [x]) := by
  induction l generalizing d with
  | nil =>
    refine ⟨h.1, ?_, ?_⟩
    · exact Function.update_self ..
    · exact (Function.update_of_ne (Ne.symm hax) ..).trans hx
  | cons b l ih =>
    obtain ⟨hb, hl⟩ := List.nodup_cons.mp hl
    have hba : b ≠ a := fun heq => hb (heq ▸ List.mem_append_right l List.mem_cons_self)
    refine ⟨h.1, ?_⟩
    rw [Function.update_of_ne hba]
    exact ih h.2 hl

/-- `ck_barrier_combining_queue_enqueue` puts a group at the end of the queue. -/
theorem queueEnqueue_spec (h : Holds next queue l) (hl : l.Nodup) (hx : x ∉ l) :
    ∃ next' queue', queueEnqueue x ({ g with next := next }, queue) =
      ({ g with next := next' }, queue') ∧ Holds next' queue' (l ++ [x]) := by
  have hchain : Chain (Function.update next x none) queue.head l := h.chain.update hx
  have hnone : Function.update next x none x = none := Function.update_self ..
  rcases List.eq_nil_or_concat' l with rfl | ⟨l, a, rfl⟩
  · have hhead : queue.head = none := h.chain
    refine ⟨Function.update next x none, ⟨some x, some x⟩, by simp only [queueEnqueue, hhead], ?_⟩
    exact ⟨⟨rfl, hnone⟩, by simp⟩
  · have htail : queue.tail = some a := h.tail a (by simp)
    obtain ⟨b, hhead⟩ : ∃ b, queue.head = some b := by
      cases l with
      | nil => exact ⟨a, h.chain.1⟩
      | cons b l => exact ⟨b, h.chain.1⟩
    have hax : a ≠ x := by
      rintro rfl
      exact hx (by simp)
    refine ⟨Function.update (Function.update next x none) a (some x),
      { queue with tail := some x }, by simp only [queueEnqueue, hhead, htail],
      hchain.concat hl hax hnone, by simp⟩

/-! ## The loop -/

/-- The loop has passed the groups `done`, and `l` are in the queue. -/
structure Level (g : Groups γ) (root : γ) (names done l : List γ) : Prop where
  nodup : (done ++ l).Nodup
  subset : done ++ l ⊆ names
  length : (done ++ l).length = 2 * done.length + 1
  parent : ∀ a ∈ done ++ l, a = root ∨ ∃ p ∈ done, g.parent a = some p

variable {done : List γ} {b c : γ}

/-- The child of a group in the queue has not been there. -/
theorem Level.fresh (ht : IsTree g root groups)
    (h : Level g root (groups.map Prod.fst) done (a :: l)) (hb : b ∈ children g a) :
    b ∉ done ++ a :: l := by
  intro hmem
  have ha : a ∈ groups.map Prod.fst := h.subset (by simp)
  have hparent := (ht.child a ha b hb).2
  rcases h.parent b hmem with rfl | ⟨p, hp, hparent'⟩
  · rw [ht.parent_root] at hparent
    exact Option.some_ne_none _ hparent.symm
  · have heq : a = p := Option.some.inj (hparent.symm.trans hparent')
    exact List.disjoint_of_nodup_append h.nodup hp (heq ▸ List.mem_cons_self)

theorem Level.step (ht : IsTree g root groups)
    (h : Level g root (groups.map Prod.fst) done (a :: l)) (hb : g.left a = some b)
    (hc : g.right a = some c) :
    Level g root (groups.map Prod.fst) (done ++ [a]) (l ++ [b] ++ [c]) := by
  have ha : a ∈ groups.map Prod.fst := h.subset (by simp)
  have hbmem : b ∈ children g a := by simp [children, hb]
  have hcmem : c ∈ children g a := by simp [children, hc]
  have hbnew := h.fresh ht hbmem
  have hcnew := h.fresh ht hcmem
  have hbc : b ≠ c := fun heq => ht.distinct a ha b hb (heq ▸ hc)
  have happend : done ++ [a] ++ (l ++ [b] ++ [c]) = done ++ a :: l ++ [b] ++ [c] := by simp
  refine ⟨?_, ?_, ?_, ?_⟩
  · rw [happend]
    refine List.Nodup.append (h.nodup.append (List.nodup_singleton b) ?_)
      (List.nodup_singleton c) ?_
    · exact List.disjoint_singleton.mpr hbnew
    · rw [List.disjoint_singleton, List.mem_append, List.mem_singleton]
      exact fun hmem => hmem.elim hcnew (Ne.symm hbc)
  · rw [happend]
    refine List.append_subset.mpr ⟨List.append_subset.mpr ⟨h.subset, ?_⟩, ?_⟩
    · exact fun d hd => List.mem_singleton.mp hd ▸ (ht.child a ha b hbmem).1
    · exact fun d hd => List.mem_singleton.mp hd ▸ (ht.child a ha c hcmem).1
  · have := h.length
    simp only [List.length_append, List.length_cons, List.length_nil] at this ⊢
    omega
  · rw [happend]
    intro d hd
    have ha' : a ∈ done ++ [a] := by simp
    rcases List.mem_append.mp hd with hd | hd
    · rcases List.mem_append.mp hd with hd | hd
      · refine (h.parent d hd).imp_right fun ⟨p, hp, hparent⟩ => ?_
        exact ⟨p, List.mem_append_left _ hp, hparent⟩
      · rw [List.mem_singleton.mp hd]
        exact .inr ⟨a, ha', (ht.child a ha b hbmem).2⟩
    · rw [List.mem_singleton.mp hd]
      exact .inr ⟨a, ha', (ht.child a ha c hcmem).2⟩

/-- The pointer of `ck_barrier_combining_insert` is free. -/
def Free (g : Groups γ) (node : γ) : Child → Prop
  | .left => g.left node = none
  | .right => g.left node ≠ none ∧ g.right node = none

/-- The loop finds a group with a free pointer, and links the new group there. -/
theorem link_spec (tnode : γ) (ht : IsTree g root groups)
    (h : Level g root (groups.map Prod.fst) done l) (hq : Holds next queue l) {fuel : Nat}
    (hfuel : groups.length ≤ fuel + done.length) :
    ∃ node ∈ groups.map Prod.fst, ∃ next' child,
      link tnode fuel ({ g with next := next }, queue) =
        some (insert node tnode child { g with next := next' }) ∧
      Free g node child := by
  induction fuel generalizing done l next queue with
  | zero =>
    have hle := (List.subperm_of_subset h.nodup h.subset).length_le
    have hlen := h.length
    rw [List.length_map] at hle
    omega
  | succ fuel ih =>
    match l, h, hq with
    | [], h, _ =>
      have hlen := h.length
      simp only [List.append_nil] at hlen
      omega
    | a :: l, h, hq =>
      have ha : a ∈ groups.map Prod.fst := h.subset (by simp)
      have hhead : queue.head = some a := hq.chain.1
      simp only [link, queueDequeue, hhead]
      split
      case h_1 hleft => exact ⟨a, ha, next, .left, rfl, hleft⟩
      case h_2 left hleft hright =>
        exact ⟨a, ha, next, .right, rfl, by simp [show g.left a = some left from hleft], hright⟩
      case h_3 left right hleft hright =>
        have hstep := h.step ht hleft hright
        obtain ⟨-, hnodup, -⟩ := List.nodup_append.mp hstep.nodup
        have hnodup' := (List.nodup_append.mp hnodup).1
        have hl := (List.nodup_append.mp hnodup').1
        have hq' : Holds next { queue with head := next a } l := by
          refine ⟨hq.chain.2, fun d hd => hq.tail d ?_⟩
          rw [List.getLast?_cons, Option.mem_def.mp hd]
          rfl
        obtain ⟨next₁, queue₁, heq₁, hq₁⟩ := queueEnqueue_spec (g := g) (x := left) hq' hl
          fun hmem => List.disjoint_of_nodup_append hnodup' hmem (by simp)
        obtain ⟨next₂, queue₂, heq₂, hq₂⟩ := queueEnqueue_spec (g := g) (x := right) hq₁ hnodup'
          fun hmem => List.disjoint_of_nodup_append hnodup hmem (by simp)
        rw [heq₁, heq₂]
        refine ih hstep hq₂ ?_
        rw [List.length_append, List.length_singleton]
        omega

/-! ## A new group -/

variable {node p : γ} {child : Child}

/-- `ck_barrier_combining_insert` adds one child. -/
theorem children_insert (tnode : γ) (hfree : Free g node child) (p : γ) :
    children (insert node tnode child g) p =
      if p = node then children g p ∪ {tnode} else children g p := by
  by_cases hp : p = node
  · subst hp
    rw [if_pos rfl]
    cases child with
    | left =>
      have hleft : g.left p = none := hfree
      simp [children, insert, hleft, Finset.union_comm]
    | right =>
      have hright : g.right p = none := hfree.2
      simp [children, insert, hright]
  · rw [if_neg hp]
    cases child with
    | left => simp [children, insert, hp]
    | right => simp [children, insert, hp]

theorem distinct_insert (hfree : Free g node child) (hnew : tnode ∉ children g p)
    (hp : ∀ a, g.left p = some a → g.right p ≠ some a)
    (ha : (insert node tnode child g).left p = some a) :
    (insert node tnode child g).right p ≠ some a := by
  simp only [children, Finset.mem_union, Option.mem_toFinset, Option.mem_def, not_or] at hnew
  by_cases heq : p = node
  · subst heq
    cases child with
    | left =>
      simp only [insert, Function.update_self, Option.some.injEq] at ha ⊢
      exact ha ▸ hnew.2
    | right =>
      simp only [insert, Function.update_self, ne_eq, Option.some.injEq] at ha ⊢
      exact fun hta => hnew.1 (hta ▸ ha)
  · cases child with
    | left =>
      simp only [insert, Function.update_of_ne heq] at ha ⊢
      exact hp a ha
    | right =>
      simp only [insert, Function.update_of_ne heq] at ha ⊢
      exact hp a ha

theorem parent_insert : (insert node tnode child g).parent =
    Function.update g.parent tnode (some node) := by
  cases child <;> rfl

theorem k_insert : (insert node tnode child g).k =
    Function.update g.k node (g.k node + 1) := by
  cases child <;> rfl

theorem count_insert : (insert node tnode child g).count = g.count := by
  cases child <;> rfl

theorem sense_insert : (insert node tnode child g).sense = g.sense := by
  cases child <;> rfl

/-- A group that is not in the tree becomes a leaf of it. -/
theorem IsTree.grow (ht : IsTree g root groups) (hnew : tnode ∉ groups.map Prod.fst)
    (hnode : node ∈ groups.map Prod.fst) (hfree : Free g node child) (hk : g.k tnode = nthr)
    (hleaf : children g tnode = ∅) (hcount : g.count tnode = 0) (hsense : g.sense tnode = 0) :
    IsTree (insert node tnode child g) root (groups ++ [(tnode, nthr)]) := by
  have hne : ∀ p ∈ groups.map Prod.fst, p ≠ tnode := fun p hp heq => hnew (heq ▸ hp)
  have hfresh : ∀ p ∈ groups.map Prod.fst ++ [tnode], tnode ∉ children g p := by
    intro p hp hmem
    rcases List.mem_append.mp hp with hp | hp
    · exact hnew (ht.child p hp tnode hmem).1
    · rw [List.mem_singleton.mp hp, hleaf] at hmem
      exact Finset.notMem_empty _ hmem
  have hchildren := children_insert tnode hfree
  have hmap : (groups ++ [(tnode, nthr)]).map Prod.fst = groups.map Prod.fst ++ [tnode] := by
    rw [List.map_append, List.map_singleton]
  refine ⟨?_, ?_, ?_, ?_, ?_, ?_, ?_, ?_, ?_⟩
  · rw [hmap]
    exact ht.nodup.append (List.nodup_singleton tnode) (List.disjoint_singleton.mpr hnew)
  · rw [hmap]
    exact List.mem_append_left _ ht.root_mem
  · rw [parent_insert, Function.update_of_ne (hne root ht.root_mem)]
    exact ht.parent_root
  · rw [hmap, parent_insert]
    intro n a hn ha
    rcases Nat.lt_or_ge n (groups.map Prod.fst).length with hlt | hge
    · rw [List.getElem?_append_left hlt] at hn
      obtain ⟨p, hp, hparent, hmem⟩ := ht.parent n a hn ha
      refine ⟨p, ?_, ?_, ?_⟩
      · rw [List.take_append_of_le_length hlt.le]
        exact hp
      · rw [Function.update_of_ne (hne a (List.mem_of_getElem? hn))]
        exact hparent
      · rw [hchildren]
        split
        case isTrue => exact Finset.mem_union_left _ hmem
        case isFalse => exact hmem
    · rw [List.getElem?_append_right hge, List.getElem?_singleton] at hn
      split at hn
      case isFalse => exact absurd hn.symm (Option.some_ne_none _)
      case isTrue hzero =>
        obtain rfl := Option.some.inj hn
        refine ⟨node, ?_, Function.update_self .., ?_⟩
        · rw [show n = (groups.map Prod.fst).length by omega, List.take_left]
          exact hnode
        · rw [hchildren, if_pos rfl]
          exact Finset.mem_union_right _ (Finset.mem_singleton_self _)
  · rw [hmap, parent_insert]
    intro p hp a ha
    have hold : a ∈ children g p → a ∈ groups.map Prod.fst ++ [tnode] ∧
        Function.update g.parent tnode (some node) a = some p := by
      intro ha
      rcases List.mem_append.mp hp with hp | hp
      · obtain ⟨hmem, hparent⟩ := ht.child p hp a ha
        refine ⟨List.mem_append_left _ hmem, ?_⟩
        rw [Function.update_of_ne (hne a hmem)]
        exact hparent
      · rw [List.mem_singleton.mp hp, hleaf] at ha
        exact absurd ha (Finset.notMem_empty _)
    rw [hchildren] at ha
    split at ha
    case isFalse => exact hold ha
    case isTrue heq =>
      rcases Finset.mem_union.mp ha with ha | ha
      · exact hold ha
      · rw [Finset.mem_singleton.mp ha, heq]
        exact ⟨by simp, Function.update_self ..⟩
  · rw [hmap]
    intro p hp a ha
    refine distinct_insert hfree (hfresh p hp) (fun b hb => ?_) ha
    rcases List.mem_append.mp hp with hp | hp
    · exact ht.distinct p hp b hb
    · have hbmem : b ∈ children g p := by simp [children, hb]
      rw [List.mem_singleton.mp hp, hleaf] at hbmem
      exact absurd hbmem (Finset.notMem_empty _)
  · intro c hc
    rw [k_insert, hchildren]
    rcases List.mem_append.mp hc with hc | hc
    · have hmem : c.1 ∈ groups.map Prod.fst := List.mem_map_of_mem hc
      have hkc := ht.k c hc
      by_cases heq : c.1 = node
      · rw [if_pos heq, ← heq, Function.update_self, hkc, Finset.card_union_of_disjoint
          (Finset.disjoint_singleton_right.mpr (hfresh _ (List.mem_append_left _ hmem))),
          Finset.card_singleton, BitVec.ofNat_add, BitVec.add_assoc]
        rfl
      · rw [if_neg heq, Function.update_of_ne heq, hkc]
    · have hctnode : tnode ≠ node := fun heq => hnew (heq ▸ hnode)
      rw [List.mem_singleton.mp hc, if_neg hctnode, Function.update_of_ne hctnode, hk, hleaf]
      simp
  · rw [hmap, count_insert]
    intro p hp
    rcases List.mem_append.mp hp with hp | hp
    · exact ht.count p hp
    · exact List.mem_singleton.mp hp ▸ hcount
  · rw [hmap, sense_insert]
    intro p hp
    rcases List.mem_append.mp hp with hp | hp
    · exact ht.sense p hp
    · exact List.mem_singleton.mp hp ▸ hsense

/-! ## The calls -/

/-- What is stored to a group that is not in the tree does not matter. -/
theorem IsTree.frame {g' : Groups γ} (ht : IsTree g root groups)
    (heq : ∀ p ∈ groups.map Prod.fst, g'.k p = g.k p ∧ g'.count p = g.count p ∧
      g'.sense p = g.sense p ∧ g'.left p = g.left p ∧ g'.right p = g.right p)
    (hparent : g'.parent = g.parent) : IsTree g' root groups := by
  have hchildren : ∀ p ∈ groups.map Prod.fst, children g' p = children g p := by
    intro p hp
    obtain ⟨-, -, -, hleft, hright⟩ := heq p hp
    rw [children, hleft, hright, children]
  refine ⟨ht.nodup, ht.root_mem, hparent ▸ ht.parent_root, fun n a hn ha => ?_, fun p hp a ha => ?_,
    fun p hp a => ?_, fun c hc => ?_, fun p hp => (heq p hp).2.1.trans (ht.count p hp),
    fun p hp => (heq p hp).2.2.1.trans (ht.sense p hp)⟩
  · obtain ⟨p, hp, hparent', hmem⟩ := ht.parent n a hn ha
    exact ⟨p, hp, hparent ▸ hparent', (hchildren p (List.mem_of_mem_take hp)).symm ▸ hmem⟩
  · rw [hchildren p hp] at ha
    exact hparent ▸ ht.child p hp a ha
  · obtain ⟨-, -, -, hleft, hright⟩ := heq p hp
    rw [hleft, hright]
    exact ht.distinct p hp a
  · have hmem : c.1 ∈ groups.map Prod.fst := List.mem_map_of_mem hc
    rw [hchildren _ hmem, (heq _ hmem).1]
    exact ht.k c hc

/-- `ck_barrier_combining_init` makes the root. -/
theorem isTree_init (g : Groups γ) (root : γ) : IsTree (init root g) root [(root, 0)] where
  nodup := List.nodup_singleton root
  root_mem := List.mem_singleton_self root
  parent_root := Function.update_self ..
  parent n a hn ha := by
    rw [List.map_singleton, List.getElem?_singleton] at hn
    split at hn
    · exact absurd (Option.some.inj hn).symm ha
    · exact absurd hn.symm (Option.some_ne_none _)
  child p hp a ha := by
    rw [List.mem_singleton.mp hp] at ha
    simp [children, init] at ha
  distinct p hp a := by
    rw [List.mem_singleton.mp hp]
    simp [init]
  k c hc := by
    rw [List.mem_singleton.mp hc]
    simp [children, init]
  count p hp := by
    rw [List.mem_singleton.mp hp]
    simp [init]
  sense p hp := by
    rw [List.mem_singleton.mp hp]
    simp [init]

/-- `ck_barrier_combining_group_init` adds a group to the tree, and its loop ends. -/
theorem groupInit_spec (ht : IsTree g root groups) (hnew : tnode ∉ groups.map Prod.fst)
    (nthr : BitVec 32) {fuel : Nat} (hfuel : groups.length ≤ fuel) :
    ∃ g', groupInit fuel root tnode nthr g = some g' ∧
      IsTree g' root (groups ++ [(tnode, nthr)]) := by
  have hne : ∀ p ∈ groups.map Prod.fst, p ≠ tnode := fun p hp heq => hnew (heq ▸ hp)
  let g₁ : Groups γ := { g with
    k := Function.update g.k tnode nthr
    count := Function.update g.count tnode 0
    sense := Function.update g.sense tnode 0
    left := Function.update g.left tnode none
    right := Function.update g.right tnode none }
  have ht₁ : IsTree g₁ root groups := by
    refine ht.frame (fun p hp => ?_) rfl
    simp [g₁, Function.update_of_ne (hne p hp)]
  have hempty : Holds g₁.next (⟨none, none⟩ : Queue γ) [] := ⟨rfl, by simp⟩
  obtain ⟨next, queue, henqueue, hq⟩ := queueEnqueue_spec (g := g₁) (x := root) hempty
    List.nodup_nil List.not_mem_nil
  have hlevel : Level g₁ root (groups.map Prod.fst) [] [root] :=
    ⟨List.nodup_singleton root, by simpa using ht.root_mem, rfl, fun a ha =>
      .inl (List.mem_singleton.mp ha)⟩
  obtain ⟨node, hnode, next', child, hlink, hfree⟩ :=
    link_spec tnode ht₁ hlevel hq hfuel
  refine ⟨_, (congrArg (link tnode fuel) henqueue).trans hlink, ?_⟩
  have ht₂ : IsTree { g₁ with next := next' } root groups :=
    ht₁.frame (fun p _ => ⟨rfl, rfl, rfl, rfl, rfl⟩) rfl
  refine ht₂.grow hnew hnode ?_ ?_ ?_ ?_ ?_
  · cases child <;> exact hfree
  · exact Function.update_self ..
  · simp [children, g₁]
  · exact Function.update_self ..
  · exact Function.update_self ..

/-- Any calls of `ck_barrier_combining_group_init` for different groups build a tree. -/
theorem groupInits_spec {calls : List (γ × BitVec 32)} (ht : IsTree g root groups)
    (hnew : ((groups ++ calls).map Prod.fst).Nodup) {fuel : Nat}
    (hfuel : groups.length + calls.length ≤ fuel) :
    ∃ g', groupInits fuel root calls g = some g' ∧ IsTree g' root (groups ++ calls) := by
  induction calls generalizing g groups with
  | nil => exact ⟨g, rfl, by rwa [List.append_nil]⟩
  | cons c calls ih =>
    obtain ⟨tnode, nthr⟩ := c
    have hmem : tnode ∉ groups.map Prod.fst := by
      rw [List.map_append] at hnew
      exact fun hmem => List.disjoint_of_nodup_append hnew hmem (by simp)
    rw [List.length_cons] at hfuel
    have hgroups : groups.length ≤ fuel := by omega
    obtain ⟨g₁, hg₁, ht₁⟩ := groupInit_spec ht hmem nthr hgroups
    rw [List.append_cons] at hnew ⊢
    obtain ⟨g₂, hg₂, ht₂⟩ := ih ht₁ hnew (by
      rw [List.length_append, List.length_singleton]
      omega)
    refine ⟨g₂, ?_, ht₂⟩
    rw [groupInits, hg₁]
    exact hg₂

end ConcurrencyKit.Barrier.Combining
