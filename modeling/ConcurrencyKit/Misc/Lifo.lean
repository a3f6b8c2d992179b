import ConcurrencyKit.Misc.Linear

/-!
# Stacks

The sequential specification of a stack whose entries are unique, with an operation that takes
all of them, and the representation of a stack as a chain of pointers.
-/

namespace ConcurrencyKit.Lifo

open Linear (Legal)

variable {N : Type}

/-- The operations of a stack with their results. An attempt may fail without effect. -/
inductive Op (N : Type) where
  | push (x : N)
  | pop (result : Option N)
  | popAll (result : List N)
  | miss
  deriving DecidableEq, Repr

/-- What an operation does to a stack. -/
inductive Next : List N → Op N → List N → Prop
  | push {s : List N} (x : N) (absent : x ∉ s) : Next s (.push x) (x :: s)
  | pop (x : N) (s : List N) : Next (x :: s) (.pop (some x)) s
  | empty : Next [] (.pop none) []
  | popAll (s : List N) : Next s (.popAll s) []
  | miss (s : List N) : Next s .miss s

/-- The operation returns the entry `x`. -/
def Op.Returns (x : N) : Op N → Prop
  | .pop r => r = some x
  | .popAll r => x ∈ r
  | _ => False

variable {s t : List N} {ops : List (Op N)} {op : Op N} {x : N}

/-- No entry occurs twice. -/
theorem Next.nodup (h : Next s op t) (hs : s.Nodup) : t.Nodup := by
  cases h with
  | push x absent => exact List.nodup_cons.mpr ⟨absent, hs⟩
  | pop x => exact (List.nodup_cons.mp hs).2
  | empty => exact hs
  | popAll => exact List.nodup_nil
  | miss => exact hs

theorem legal_nodup (h : Legal Next [] ops t) : t.Nodup :=
  h.invariant List.nodup_nil Next.nodup

/-- An entry that an operation returns was there and is gone. -/
theorem Next.returns (h : Next s op t) (hs : s.Nodup) (hr : op.Returns x) : x ∈ s ∧ x ∉ t := by
  cases h with
  | pop y =>
    cases hr
    exact ⟨List.mem_cons_self, (List.nodup_cons.mp hs).1⟩
  | popAll => exact ⟨hr, List.not_mem_nil⟩
  | empty => cases hr
  | push => exact hr.elim
  | miss => exact hr.elim

/-- Only a push brings an entry in. -/
theorem Next.not_mem (h : Next s op t) (hop : op ≠ .push x) (hx : x ∉ s) : x ∉ t := by
  cases h with
  | push y =>
    intro hm
    rcases List.mem_cons.mp hm with rfl | hm
    · exact hop rfl
    · exact hx hm
  | pop y => exact fun hm => hx (List.mem_cons_of_mem _ hm)
  | empty => exact hx
  | popAll => exact List.not_mem_nil
  | miss => exact hx

/-- Only an operation that returns an entry takes it out. -/
theorem Next.mem (h : Next s op t) (hop : ¬ op.Returns x) (hx : x ∈ s) : x ∈ t := by
  cases h with
  | push y => exact List.mem_cons_of_mem _ hx
  | pop y =>
    rcases List.mem_cons.mp hx with rfl | hx
    · exact absurd rfl hop
    · exact hx
  | empty => exact hx
  | popAll => exact absurd hx hop
  | miss => exact hx

theorem legal_not_mem (h : Legal Next s ops t) (hops : ∀ op ∈ ops, op ≠ .push x) (hx : x ∉ s) :
    x ∉ t := by
  induction h with
  | nil => exact hx
  | snoc op _ hn ih =>
    refine hn.not_mem (hops op (by simp)) (ih fun op' hop' => hops op' ?_)
    exact List.mem_append_left _ hop'

theorem legal_mem (h : Legal Next s ops t) (hops : ∀ op ∈ ops, ¬ op.Returns x) (hx : x ∈ s) :
    x ∈ t := by
  induction h with
  | nil => exact hx
  | snoc op _ hn ih =>
    refine hn.mem (hops op (by simp)) (ih fun op' hop' => hops op' ?_)
    exact List.mem_append_left _ hop'

/-- Between two operations that return an entry it is pushed. -/
theorem legal_once {front mid back : List (Op N)} {first second : Op N}
    (h : Legal Next [] (front ++ first :: (mid ++ second :: back)) t)
    (hfirst : first.Returns x) (hsecond : second.Returns x) : .push x ∈ mid := by
  by_contra hmid
  have hsplit : front ++ first :: (mid ++ second :: back) =
      (front ++ [first]) ++ (mid ++ ([second] ++ back)) := by simp
  rw [hsplit] at h
  obtain ⟨r, hr, h⟩ := h.cut
  obtain ⟨q, hq, h⟩ := h.cut
  obtain ⟨p, hp, -⟩ := h.cut
  obtain ⟨r', hr', hfst⟩ := hr.snoc_inv
  obtain ⟨q', hq', hsnd⟩ := (show Legal Next q ([] ++ [second]) p from hp).snoc_inv
  have hgone : x ∉ r := (hfst.returns (legal_nodup hr') hfirst).2
  have hout : x ∉ q := by
    refine legal_not_mem hq (fun op hop he => ?_) hgone
    rw [he] at hop
    exact hmid hop
  have hnodup : q.Nodup := hq.invariant (legal_nodup hr) Next.nodup
  rw [hq'.nil_inv] at hsnd
  exact hout (hsnd.returns hnodup hsecond).1

/-- An entry that has been pushed and not been returned since is on the stack. -/
theorem legal_kept {front back : List (Op N)} (h : Legal Next [] (front ++ .push x :: back) t)
    (hback : ∀ op ∈ back, ¬ op.Returns x) : x ∈ t := by
  have hsplit : front ++ Op.push x :: back = (front ++ [.push x]) ++ back := by simp
  rw [hsplit] at h
  obtain ⟨r, hr, h⟩ := h.cut
  obtain ⟨r', -, hpush⟩ := hr.snoc_inv
  refine legal_mem h hback ?_
  cases hpush
  exact List.mem_cons_self

/-! ## Chains -/

/-- Following `next` from `p` gives the entries of the list and then ends. -/
def Chain (next : N → Option N) : Option N → List N → Prop
  | p, [] => p = none
  | p, x :: l => p = some x ∧ Chain next (next x) l

variable {next : N → Option N} {p : Option N} {l : List N}

theorem Chain.nil_of_none (h : Chain next none l) : l = [] := by
  cases l with
  | nil => rfl
  | cons x l => cases h.1

theorem Chain.cons_of_some (h : Chain next (some x) l) :
    ∃ l', l = x :: l' ∧ Chain next (next x) l' := by
  cases l with
  | nil => cases h
  | cons y l' =>
    obtain ⟨he, h'⟩ := h
    cases he
    exact ⟨l', rfl, h'⟩

/-- Only the entries of the list matter. -/
theorem Chain.congr {next' : N → Option N} (h : Chain next p l)
    (hnext : ∀ x ∈ l, next' x = next x) : Chain next' p l := by
  induction l generalizing p with
  | nil => exact h
  | cons x l ih =>
    obtain ⟨he, h'⟩ := h
    refine ⟨he, ?_⟩
    rw [hnext x List.mem_cons_self]
    exact ih h' fun y hy => hnext y (List.mem_cons_of_mem _ hy)

/-- What follows an entry. -/
theorem Chain.follows {front back : List N} (h : Chain next p (front ++ x :: back)) :
    next x = back.head? := by
  induction front generalizing p with
  | nil =>
    obtain ⟨-, h'⟩ := h
    cases back with
    | nil => exact h'
    | cons y back => exact h'.1
  | cons y front ih => exact ih h.2

/-- Writing to an entry that is not on the stack does not matter. -/
theorem Chain.update [DecidableEq N] (h : Chain next p l) (hx : x ∉ l) (v : Option N) :
    Chain (Function.update next x v) p l := by
  induction l generalizing p with
  | nil => exact h
  | cons y l ih =>
    obtain ⟨he, h'⟩ := h
    have hne : y ≠ x := fun he => hx (he ▸ List.mem_cons_self)
    refine ⟨he, ?_⟩
    rw [Function.update_of_ne hne]
    exact ih h' fun hm => hx (List.mem_cons_of_mem _ hm)

end ConcurrencyKit.Lifo
