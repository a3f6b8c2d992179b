import ConcurrencyKit.Epoch.Calls.Model

/-!
# Where the deferred calls are

Outside of `ck_epoch_dispatch` each call that has not been dispatched is in the slot that it has
been pushed to. A dispatch takes all calls of a slot in hand, and hands them to the program one
after another. What a callback defers meanwhile goes to the slots, also to the one that has just
been emptied.

The counters of the record lag behind while calls are in hand: `n_pending` still counts the ones
that the loop has passed, and `n_dispatch` does not count them yet.
-/

namespace ConcurrencyKit.Epoch.Calls

open Chain (Cells Linked LinkedFrom linked_iff_from)
open Chain.Loc (head next)

variable {σ α φ : Type}

/-- The entry that the loop of `ck_epoch_dispatch` comes to next. -/
def Pc.cursor : Pc σ α φ → Option α
  | .walk _ cursor _ | .callback _ _ cursor _ => cursor
  | _ => none

/-- The entries that the loop of `ck_epoch_dispatch` has passed. -/
def Pc.passed : Pc σ α φ → BitVec 32
  | .walk _ _ i => i
  | .callback _ _ _ i => i + 1
  | _ => 0

theorem Pc.Outside.cursor {pc : Pc σ α φ} (h : pc.Outside) : pc.cursor = none := by
  cases pc with
  | walk => exact False.elim h
  | callback => exact False.elim h
  | idle => rfl
  | poll => rfl
  | synchronize => rfl
  | dispatch => rfl

theorem Pc.Outside.passed {pc : Pc σ α φ} (h : pc.Outside) : pc.passed = 0#32 := by
  cases pc with
  | walk => exact False.elim h
  | callback => exact False.elim h
  | idle => rfl
  | poll => rfl
  | synchronize => rfl
  | dispatch => rfl

/-- The entries of the slots are `q`, and the ones that a dispatch still has in hand are `b`. -/
structure Inv (s : State σ α φ) (q : Fin 4 → List α) (b : List α) : Prop where
  slots : ∀ k, Linked s.cell (head (.pending k)) (q k)
  hand : LinkedFrom s.cell s.pc.cursor b
  filed : ∀ k, ∀ x ∈ q k, ∃ n, s.number x = some n ∧ s.Deferred n x k
  held : ∀ x ∈ b, ∃ n k, s.number x = some n ∧ s.Deferred n x k
  apart : ∀ x ∈ b, ∀ k, x ∉ q k
  nodup : b.Nodup
  found : ∀ n x k, s.Deferred n x k → s.number x = some n ∧ (x ∈ q k ∨ x ∈ b)
  once : s.dispatched.Nodup
  range : ∀ n ∈ s.dispatched, n < s.calls.length
  nPending : s.nPending = BitVec.ofNat 32 (∑ k, (q k).length + b.length) + s.pc.passed
  nDispatch : s.nDispatch + s.pc.passed = BitVec.ofNat 32 s.dispatched.length

/-- What a step leaves of the calls: none is forgotten, and the ones in hand stay there until they
are dispatched. -/
structure After (s s' : State σ α φ) (b b' : List α) : Prop where
  calls : s.calls <+: s'.calls
  dispatched : ∀ n ∈ s.dispatched, n ∈ s'.dispatched
  hand : ∀ x ∈ b, x ∈ b' ∨ ∀ n, s.number x = some n → n ∈ s'.dispatched

variable {s s' s₀ : State σ α φ} {q : Fin 4 → List α} {b b' : List α} {n : ℕ} {x : α} {k j : Fin 4}

theorem word_succ (n : ℕ) : BitVec.ofNat 32 (n + 1) = BitVec.ofNat 32 n + 1 := BitVec.ofNat_add ..

/-- The number of entries in all slots, when one of them gets other entries. -/
theorem sum_length_update (q : Fin 4 → List α) (k : Fin 4) (l : List α) :
    ∑ j, (Function.update q k l j).length + (q k).length = ∑ j, (q j).length + l.length := by
  have hrest : ∑ j ∈ Finset.univ.erase k, (Function.update q k l j).length =
      ∑ j ∈ Finset.univ.erase k, (q j).length :=
    Finset.sum_congr rfl fun j hj => by rw [Function.update_of_ne (Finset.ne_of_mem_erase hj)]
  rw [← Finset.add_sum_erase _ _ (Finset.mem_univ k), hrest, Function.update_self,
    ← Finset.add_sum_erase _ (fun j => (q j).length) (Finset.mem_univ k)]
  omega

namespace Inv

variable (h : Inv s q b)
include h

theorem outstanding (hx : (∃ k, x ∈ q k) ∨ x ∈ b) : s.Outstanding x := by
  rcases hx with ⟨k, hx⟩ | hx
  · obtain ⟨n, hn, hd⟩ := h.filed k x hx
    exact ⟨n, hn, hd.2⟩
  · obtain ⟨n, k, hn, hd⟩ := h.held x hx
    exact ⟨n, hn, hd.2⟩

/-- An entry is in one slot only. -/
theorem slot_unique (hk : x ∈ q k) (hj : x ∈ q j) : k = j := by
  obtain ⟨n, hn, hdk, -⟩ := h.filed k x hk
  obtain ⟨m, hm, hdj, -⟩ := h.filed j x hj
  obtain rfl : n = m := Option.some.inj (hn.symm.trans hm)
  exact congrArg Prod.snd (Option.some.inj (hdk.symm.trans hdj))

theorem mem_slot_iff (hb : b = []) (hd : s.Deferred n x k) (j : Fin 4) : x ∈ q j ↔ j = k := by
  have hx : x ∈ q k := (h.found n x k hd).2.resolve_right (by rw [hb]; exact List.not_mem_nil)
  constructor
  · exact fun hj => h.slot_unique hj hx
  · rintro rfl
    exact hx

/-- A step that stores to nothing but the global epoch, `epoch` and local variables. -/
theorem move {pc : Pc σ α φ} (g e : BitVec 32) (hcursor : pc.cursor = s.pc.cursor)
    (hpassed : pc.passed = s.pc.passed) :
    Inv { s with
      global := g
      epoch := e
      pc := pc } q b where
  slots := h.slots
  hand := by
    dsimp only
    rw [hcursor]
    exact h.hand
  filed := h.filed
  held := h.held
  apart := h.apart
  nodup := h.nodup
  found := h.found
  once := h.once
  range := h.range
  nPending := by
    dsimp only
    rw [hpassed]
    exact h.nPending
  nDispatch := by
    dsimp only
    rw [hpassed]
    exact h.nDispatch

/-- The program stores to its own memory. -/
theorem store {cell : Cells (Stack σ) α} {function : α → φ}
    (hpending : ∀ k, cell (head (.pending k)) = s.cell (head (.pending k)))
    (hentry : ∀ x, s.Outstanding x → cell (next x) = s.cell (next x)) :
    Inv { s with
      cell := cell
      function := function } q b :=
  { h with
    slots := fun k => (h.slots k).congr (hpending k) fun x hx =>
      hentry x (h.outstanding (.inl ⟨k, hx⟩))
    hand := h.hand.congr fun x hx => hentry x (h.outstanding (.inr hx)) }

end Inv

/-- The next entry in hand is handed to the program. -/
theorem visit_inv {caller : Caller σ} {i : BitVec 32} (hpc : s.pc = .walk caller (some x) i)
    (h : Inv s q b) : ∃ b', b = x :: b' ∧ ∀ (cell : Cells (Stack σ) α) (pc : Pc σ α φ),
      (∀ k, cell (head (.pending k)) = s.cell (head (.pending k))) →
      (∀ y ≠ x, cell (next y) = s.cell (next y)) → pc.cursor = s.cell (next x) →
      pc.passed = i + 1 → Inv { s.release x with
        cell := cell
        pc := pc } q b' := by
  have hhand := h.hand
  rw [hpc] at hhand
  cases b with
  | nil => cases hhand
  | cons y b' =>
    obtain ⟨hy, hrest⟩ := hhand
    obtain rfl : x = y := Option.some.inj hy
    obtain ⟨hnew, hnodup⟩ := List.nodup_cons.mp h.nodup
    obtain ⟨n, k, hn, hd⟩ := h.held x List.mem_cons_self
    have hreleased : (s.release x).dispatched = s.dispatched ++ [n] := by
      unfold State.release
      rw [hn]
      rfl
    -- the calls of the other entries are not the one that is dispatched
    have hother : ∀ m z, z ≠ x → s.number z = some m → ∀ j, s.Deferred m z j →
        m ∉ (s.release x).dispatched := by
      intro m z hne hm j hdz
      rw [hreleased]
      refine fun hmem => (List.mem_append.mp hmem).elim hdz.2 fun hmem => ?_
      obtain rfl := List.mem_singleton.mp hmem
      exact hne (congrArg Prod.fst (Option.some.inj (hdz.1.symm.trans hd.1)))
    refine ⟨b', rfl, fun cell pc hpending hnext hcursor hpassed => ?_⟩
    constructor
    case slots =>
      refine fun k => (h.slots k).congr (hpending k) fun z hz => hnext z ?_
      rintro rfl
      exact h.apart z List.mem_cons_self k hz
    case hand =>
      dsimp only
      rw [hcursor]
      refine (linked_iff_from.mp hrest).congr fun z hz => hnext z ?_
      rintro rfl
      exact hnew hz
    case filed =>
      intro j z hz
      obtain ⟨m, hm, hdz⟩ := h.filed j z hz
      have hne : z ≠ x := by
        rintro rfl
        exact h.apart z List.mem_cons_self j hz
      exact ⟨m, hm, hdz.1, hother m z hne hm j hdz⟩
    case held =>
      intro z hz
      obtain ⟨m, j, hm, hdz⟩ := h.held z (List.mem_cons_of_mem x hz)
      have hne : z ≠ x := by
        rintro rfl
        exact hnew hz
      exact ⟨m, j, hm, hdz.1, hother m z hne hm j hdz⟩
    case apart => exact fun z hz => h.apart z (List.mem_cons_of_mem x hz)
    case nodup => exact hnodup
    case found =>
      rintro m z j ⟨hcall, hnot⟩
      dsimp only at hnot
      rw [hreleased, List.mem_append, not_or] at hnot
      obtain ⟨hm, hz⟩ := h.found m z j ⟨hcall, hnot.1⟩
      refine ⟨hm, hz.imp_right fun hz => (List.mem_cons.mp hz).resolve_left ?_⟩
      rintro rfl
      exact hnot.2 (List.mem_singleton.mpr (Option.some.inj (hm.symm.trans hn)))
    case once =>
      dsimp only
      rw [hreleased]
      exact h.once.append (List.nodup_singleton n) (List.disjoint_singleton.mpr hd.2)
    case range =>
      dsimp only
      rw [hreleased]
      intro m hm
      rcases List.mem_append.mp hm with hm | hm
      · exact h.range m hm
      · obtain rfl := List.mem_singleton.mp hm
        exact (List.getElem?_eq_some_iff.mp hd.1).1
    case nPending =>
      have hcount := h.nPending
      rw [hpc] at hcount
      change s.nPending = BitVec.ofNat 32 (_ + (b'.length + 1)) + i at hcount
      change s.nPending = _ + pc.passed
      rw [hcount, hpassed, ← Nat.add_assoc, word_succ]
      ac_rfl
    case nDispatch =>
      have hcount := h.nDispatch
      rw [hpc] at hcount
      change s.nDispatch + i = _ at hcount
      change s.nDispatch + pc.passed = BitVec.ofNat 32 (s.release x).dispatched.length
      rw [hpassed, hreleased, List.length_append, List.length_singleton, word_succ, ← hcount]
      ac_rfl

/-- Subtracting and adding zero entries is the same as leaving the counters. -/
theorem account_eq (i : BitVec 32) (s : State σ α φ) : s.account i = { s with
    nPeak := if s.nPending > s.nPeak then s.nPending else s.nPeak
    nDispatch := s.nDispatch + i
    nPending := s.nPending - i } := by
  by_cases hi : i > 0
  · unfold State.account
    dsimp only
    rw [if_pos hi]
    split <;> rfl
  · obtain rfl : i = 0#32 := by bv_omega
    unfold State.account
    dsimp only
    rw [if_neg hi, BitVec.add_zero, BitVec.sub_zero]
    split <;> rfl

/-- The counters catch up at the end of a dispatch. -/
theorem account_inv {caller : Caller σ} {i : BitVec 32} (hpc : s.pc = .walk caller none i)
    (h : Inv s q b) : Inv { s.account i with pc := .dispatch caller } q b := by
  have hhand := h.hand
  have hpending := h.nPending
  have hdispatch := h.nDispatch
  rw [hpc] at hhand hpending hdispatch
  change s.nPending = _ + i at hpending
  change s.nDispatch + i = _ at hdispatch
  rw [account_eq]
  exact { h with
    hand := hhand
    nPending := by
      change s.nPending - i = _ + 0#32
      rw [hpending, BitVec.add_sub_cancel, BitVec.add_zero]
    nDispatch := by
      change s.nDispatch + i + 0#32 = _
      rw [BitVec.add_zero, hdispatch] }

variable [DecidableEq σ] [DecidableEq α]

/-- A dispatch takes a slot in hand. -/
theorem batchPop_inv (e : BitVec 32) (caller : Caller σ) (hpc : s.pc.Outside) (h : Inv s q b) :
    Inv (s.batchPop e caller) (Function.update q (slot e) []) (q (slot e)) := by
  obtain rfl : b = [] := h.hand.eq_nil hpc.cursor
  have hsub : ∀ k, ∀ x ∈ Function.update q (slot e) [] k, k ≠ slot e ∧ x ∈ q k := by
    intro k x hx
    by_cases hk : k = slot e
    · rw [hk, Function.update_self] at hx
      cases hx
    · rw [Function.update_of_ne hk] at hx
      exact ⟨hk, hx⟩
  have hnext : ∀ x, (s.batchPop e caller).cell (next x) = s.cell (next x) := by
    intro x
    unfold State.batchPop
    dsimp only
    rw [Function.update_of_ne (by simp)]
  constructor
  case slots =>
    intro k
    by_cases hk : k = slot e
    · rw [hk, Function.update_self]
      exact Function.update_self ..
    · rw [Function.update_of_ne hk]
      refine (h.slots k).congr (Function.update_of_ne ?_ ..) fun x _ => hnext x
      simpa using hk
  case hand => exact (linked_iff_from.mp (h.slots (slot e))).congr fun x _ => hnext x
  case filed => exact fun k x hx => h.filed k x (hsub k x hx).2
  case held =>
    intro x hx
    obtain ⟨n, hn, hd⟩ := h.filed _ x hx
    exact ⟨n, _, hn, hd⟩
  case apart =>
    intro x hx k hk
    exact (hsub k x hk).1 (h.slot_unique (hsub k x hk).2 hx)
  case nodup => exact (h.slots (slot e)).nodup
  case found =>
    intro n x k hd
    obtain ⟨hn, hx⟩ := h.found n x k hd
    refine ⟨hn, ?_⟩
    by_cases hk : k = slot e
    · exact .inr (hk ▸ hx.resolve_right List.not_mem_nil)
    · exact .inl (by rw [Function.update_of_ne hk]; exact hx.resolve_right List.not_mem_nil)
  case once => exact h.once
  case range => exact h.range
  case nPending =>
    have hsum := sum_length_update q (slot e) ([] : List α)
    rw [List.length_nil, Nat.add_zero] at hsum
    change s.nPending = _ + 0#32
    rw [hsum, h.nPending, hpc.passed, List.length_nil, Nat.add_zero]
  case nDispatch =>
    have hcount := h.nDispatch
    rw [hpc.passed] at hcount
    exact hcount

/-- An entry is deferred. -/
theorem call_inv {f : φ} (hx : ¬ s.Outstanding x) (h : Inv s q b) :
    Inv (s.call x f) (Function.update q (slot s.global) (x :: q (slot s.global))) b := by
  generalize hk₀ : slot s.global = k₀
  have hcall : s.call x f = { s.push (.pending k₀) x with
      nPending := s.nPending + 1
      function := Function.update s.function x f
      number := Function.update s.number x (some s.calls.length)
      calls := s.calls ++ [(x, k₀)] } := by
    rw [← hk₀]
    rfl
  have hslot : ∀ k, x ∉ q k := fun k hmem => hx (h.outstanding (.inl ⟨k, hmem⟩))
  have hhand : x ∉ b := fun hmem => hx (h.outstanding (.inr hmem))
  have hnext : ∀ y ≠ x, (s.call x f).cell (next y) = s.cell (next y) := by
    intro y hy
    rw [hcall]
    exact State.push_next hy
  have hsame : ∀ k, ∀ y ∈ q k, (s.call x f).cell (next y) = s.cell (next y) :=
    fun k y hy => hnext y fun heq => hslot k (heq ▸ hy)
  -- the calls that have been made before
  have hold : ∀ n y k, y ≠ x → s.number y = some n → s.Deferred n y k →
      (s.call x f).number y = some n ∧ (s.call x f).Deferred n y k := by
    intro n y k hy hn hd
    rw [hcall]
    refine ⟨?_, ?_, hd.2⟩
    · dsimp only
      rw [Function.update_of_ne hy]
      exact hn
    · dsimp only
      rw [List.getElem?_append_left (List.getElem?_eq_some_iff.mp hd.1).1]
      exact hd.1
  have hfresh : s.calls.length ∉ s.dispatched := fun hmem => lt_irrefl _ (h.range _ hmem)
  have hnew : (s.call x f).number x = some s.calls.length ∧
      (s.call x f).Deferred s.calls.length x k₀ := by
    rw [hcall]
    exact ⟨Function.update_self .., List.getElem?_concat_length, hfresh⟩
  constructor
  case slots =>
    intro k
    by_cases hk : k = k₀
    · subst hk
      rw [Function.update_self]
      refine ⟨by rw [hcall]; exact State.push_first, (h.slots k).copy ?_ fun y hy => hsame k y hy⟩
      rw [hcall]
      exact State.push_behind
    · rw [Function.update_of_ne hk]
      refine (h.slots k).congr ?_ fun y hy => hsame k y hy
      rw [hcall]
      exact State.push_head (by simpa using hk)
  case hand =>
    have hpc : (s.call x f).pc = s.pc := rfl
    rw [hpc]
    exact h.hand.congr fun y hy => hnext y fun heq => hhand (heq ▸ hy)
  case filed =>
    intro k y hy
    by_cases hk : k = k₀
    · subst hk
      rw [Function.update_self] at hy
      rcases List.mem_cons.mp hy with rfl | hy
      · exact ⟨_, hnew⟩
      · obtain ⟨n, hn, hd⟩ := h.filed k y hy
        exact ⟨n, hold n y k (fun heq => hslot k (heq ▸ hy)) hn hd⟩
    · rw [Function.update_of_ne hk] at hy
      obtain ⟨n, hn, hd⟩ := h.filed k y hy
      exact ⟨n, hold n y k (fun heq => hslot k (heq ▸ hy)) hn hd⟩
  case held =>
    intro y hy
    obtain ⟨n, k, hn, hd⟩ := h.held y hy
    exact ⟨n, k, hold n y k (fun heq => hhand (heq ▸ hy)) hn hd⟩
  case apart =>
    intro y hy k hk
    by_cases hk' : k = k₀
    · subst hk'
      rw [Function.update_self] at hk
      rcases List.mem_cons.mp hk with rfl | hk
      · exact hhand hy
      · exact h.apart y hy k hk
    · rw [Function.update_of_ne hk'] at hk
      exact h.apart y hy k hk
  case nodup => exact h.nodup
  case found =>
    intro n y k hd
    rw [hcall] at hd
    obtain ⟨hcalled, hnot⟩ := hd
    dsimp only at hcalled hnot
    rcases Nat.lt_or_ge n s.calls.length with hn | hn
    · rw [List.getElem?_append_left hn] at hcalled
      obtain ⟨hnumber, hy⟩ := h.found n y k ⟨hcalled, hnot⟩
      have hne : y ≠ x := by
        rintro rfl
        exact hy.elim (hslot k) hhand
      refine ⟨(hold n y k hne hnumber ⟨hcalled, hnot⟩).1, hy.imp_left fun hy => ?_⟩
      by_cases hk : k = k₀
      · rw [hk, Function.update_self]
        exact List.mem_cons_of_mem x (hk ▸ hy)
      · rw [Function.update_of_ne hk]
        exact hy
    · rw [List.getElem?_append_right hn, List.getElem?_singleton] at hcalled
      split at hcalled
      case isTrue hzero =>
        cases hcalled
        obtain rfl : n = s.calls.length := by omega
        exact ⟨hnew.1, .inl (by rw [Function.update_self]; exact List.mem_cons_self)⟩
      case isFalse => cases hcalled
  case once => rw [hcall]; exact h.once
  case range =>
    rw [hcall]
    intro n hn
    have hlt := h.range n hn
    dsimp only
    rw [List.length_append]
    omega
  case nPending =>
    have hsum := sum_length_update q k₀ (x :: q k₀)
    rw [List.length_cons] at hsum
    rw [hcall]
    change s.nPending + 1 = _ + s.pc.passed
    have hlen : ∑ j, (Function.update q k₀ (x :: q k₀) j).length + b.length =
        ∑ j, (q j).length + b.length + 1 := by omega
    rw [hlen, h.nPending, word_succ]
    ac_rfl
  case nDispatch =>
    rw [hcall]
    exact h.nDispatch

/-! ## Steps -/

omit [DecidableEq σ] [DecidableEq α] in
/-- A step that dispatches nothing. -/
theorem After.stay (hcalls : s.calls <+: s'.calls) (hdispatched : s'.dispatched = s.dispatched)
    (hb : ∀ x ∈ b, x ∈ b') : After s s' b b' where
  calls := hcalls
  dispatched := fun _ hn => hdispatched.symm ▸ hn
  hand := fun x hx => .inl (hb x hx)

theorem Inv.visit {caller : Caller σ} {i : BitVec 32} (hpc : s.pc = .walk caller (some x) i)
    (h : Inv s q b) : ∃ b', Inv (s.visit caller x i) q b' ∧ After s (s.visit caller x i) b b' := by
  obtain ⟨b', rfl, hvisit⟩ := visit_inv hpc h
  have hafter : ∀ s' : State σ α φ, s'.calls = s.calls →
      s'.dispatched = (s.release x).dispatched → After s s' (x :: b') b' := by
    intro s' hcalls hdispatched
    refine ⟨by rw [hcalls], fun n hn => ?_, fun y hy => ?_⟩
    · rw [hdispatched]
      exact List.mem_append_left _ hn
    · rcases List.mem_cons.mp hy with rfl | hy
      · refine .inr fun n hn => ?_
        rw [hdispatched]
        exact List.mem_append_right _ (by rw [hn]; exact List.mem_singleton_self n)
      · exact .inl hy
  refine ⟨b', ?_⟩
  unfold State.visit
  split
  case h_1 d _ =>
    refine ⟨hvisit _ _ (fun k => ?_) (fun y hy => ?_) rfl rfl, hafter _ rfl rfl⟩
    · exact State.push_head (by simp)
    · exact State.push_next hy
  case h_2 =>
    exact ⟨hvisit _ _ (fun _ => rfl) (fun _ _ => rfl) rfl rfl, hafter _ rfl rfl⟩

theorem Inv.run (scan : Scan) (h : Inv s q b) :
    ∃ q' b', Inv (s.run scan) q' b' ∧ After s (s.run scan) b b' := by
  have hstay : ∀ s' : State σ α φ, s'.calls = s.calls → s'.dispatched = s.dispatched →
      After s s' b b :=
    fun s' hcalls hdispatched => .stay (by rw [hcalls]) hdispatched fun _ hx => hx
  unfold State.run
  split
  case h_1 => exact ⟨q, b, h, hstay s rfl rfl⟩
  case h_2 deferred epoch hpc =>
    have hcursor : s.pc.cursor = none := by rw [hpc]; rfl
    have hpassed : s.pc.passed = 0 := by rw [hpc]; rfl
    cases scan with
    | blocked => exact ⟨q, b, h.move _ _ hcursor.symm hpassed.symm, hstay _ rfl rfl⟩
    | inactive => exact ⟨q, b, h.move _ _ hcursor.symm hpassed.symm, hstay _ rfl rfl⟩
    | active => exact ⟨q, b, h.move _ _ hcursor.symm hpassed.symm, hstay _ rfl rfl⟩
  case h_3 hpc =>
    exact ⟨q, b, h.move _ _ (by rw [hpc]; rfl) (by rw [hpc]; rfl), hstay _ rfl rfl⟩
  case h_4 caller hpc =>
    split
    case h_1 => exact ⟨q, b, h.move _ _ (by rw [hpc]; rfl) (by rw [hpc]; rfl), hstay _ rfl rfl⟩
    case h_2 e epochs _ =>
      have houtside : s.pc.Outside := by rw [hpc]; exact trivial
      have hb : b = [] := h.hand.eq_nil houtside.cursor
      exact ⟨_, _, batchPop_inv e _ houtside h, .stay (List.prefix_refl _) rfl fun x hx => by
        rw [hb] at hx
        cases hx⟩
  case h_5 caller i hpc =>
    refine ⟨q, b, account_inv hpc h, hstay _ ?_ ?_⟩ <;> rw [account_eq]
  case h_6 caller x i hpc => exact ⟨q, h.visit hpc⟩
  case h_7 caller _ cursor i hpc =>
    exact ⟨q, b, h.move _ _ (by rw [hpc]; rfl) (by rw [hpc]; rfl), hstay _ rfl rfl⟩

theorem Inv.step (h : Inv s q b) (hstep : Step s s') : ∃ q' b', Inv s' q' b' ∧ After s s' b b' := by
  have hstay : s'.calls = s.calls → s'.dispatched = s.dispatched →
      After s s' b b := fun hcalls hdispatched => .stay (by rw [hcalls]) hdispatched fun _ hx => hx
  cases hstep with
  | call entry function _ hentry =>
    exact ⟨_, b, call_inv hentry h, .stay (List.prefix_append ..) rfl fun _ hx => hx⟩
  | poll deferred hpc =>
    exact ⟨q, b, h.move _ _ (by rw [hpc]; rfl) (by rw [hpc]; rfl), hstay rfl rfl⟩
  | reclaim hpc => exact ⟨q, b, h.move _ _ (by rw [hpc]; rfl) (by rw [hpc]; rfl), hstay rfl rfl⟩
  | barrier hpc => exact ⟨q, b, h.move _ _ (by rw [hpc]; rfl) (by rw [hpc]; rfl), hstay rfl rfl⟩
  | run scan => exact h.run scan
  | tick => exact ⟨q, b, h.move _ _ rfl rfl, hstay rfl rfl⟩
  | store cell function hpending hentry =>
    exact ⟨q, b, h.store hpending fun x hx => (hentry x hx).1, hstay rfl rfl⟩

omit [DecidableEq σ] [DecidableEq α] in
theorem Registered.inv (h : Registered s) : Inv s (fun _ => []) [] where
  slots := h.empty
  hand := by
    rw [h.idle]
    rfl
  filed _ _ hx := by cases hx
  held _ hx := by cases hx
  apart _ hx := by cases hx
  nodup := List.nodup_nil
  found n x k hd := by
    have hcall := hd.1
    rw [h.calls] at hcall
    cases hcall
  once := by
    rw [h.dispatched]
    exact List.nodup_nil
  range n hn := by
    rw [h.dispatched] at hn
    cases hn
  nPending := by
    rw [h.nPending, h.idle]
    rfl
  nDispatch := by
    rw [h.nDispatch, h.idle, h.dispatched]
    rfl

theorem Reachable.inv (h : Reachable s) : ∃ q b, Inv s q b := by
  induction h with
  | registered h => exact ⟨_, _, h.inv⟩
  | step _ hstep ih =>
    obtain ⟨q, b, hinv⟩ := ih
    obtain ⟨q', b', hinv', -⟩ := hinv.step hstep
    exact ⟨q', b', hinv'⟩

/-! ## Snapshots -/

omit [DecidableEq σ] [DecidableEq α] in
/-- The bit of a slot is set where the slot is not empty. -/
theorem pending_bit (c : Cells (Stack σ) α) (k : Fin 4) :
    (pending c).getLsbD k = true ↔ c (head (.pending k)) ≠ none := by
  have hfold : ∀ (l : List (Fin 4)) (p : BitVec 32),
      (l.foldl (fun p i => if (c (head (.pending i))).isNone = false then p ||| 1#32 <<< i.val
        else p) p).getLsbD k = true ↔
      p.getLsbD k = true ∨ k ∈ l ∧ c (head (.pending k)) ≠ none := by
    intro l
    induction l with
    | nil => simp
    | cons i l ih =>
      intro p
      rw [List.foldl_cons, ih, List.mem_cons]
      have hk : k.val < 32 := by omega
      by_cases hi : c (head (.pending i)) = none
      · rw [if_neg (by simp [hi])]
        have hne : c (head (.pending k)) ≠ none → k ≠ i := by
          rintro hne rfl
          exact hne hi
        grind
      · rw [if_pos (Option.isNone_eq_false_iff.mpr (Option.ne_none_iff_isSome.mp hi))]
        have hbit : (p ||| 1#32 <<< i.val).getLsbD k = true ↔ p.getLsbD k = true ∨ k = i := by
          rw [BitVec.getLsbD_or, ← BitVec.twoPow_eq, BitVec.getLsbD_twoPow, Fin.ext_iff]
          grind
        rw [hbit]
        grind
  rw [pending, hfold]
  simp

omit [DecidableEq σ] [DecidableEq α] in
theorem State.Deferred.later (hd : s₀.Deferred n x k) (hcalls : s₀.calls <+: s.calls)
    (hn : n ∉ s.dispatched) : s.Deferred n x k := by
  obtain ⟨t, ht⟩ := hcalls
  refine ⟨?_, hn⟩
  rw [← ht, List.getElem?_append_left (List.getElem?_eq_some_iff.mp hd.1).1]
  exact hd.1

/-- What a snapshot says of the calls that were pending when it was taken. -/
def Kept (s₀ s : State σ α φ) (p : BitVec 32) (b : List α) : Prop :=
  ∀ n x k, s₀.Deferred n x k → n ∈ s.dispatched ∨ x ∈ b ∨ p.getLsbD k = true

omit [DecidableEq σ] [DecidableEq α] in
/-- What is pending is in its slot or in hand. -/
theorem Kept.taken (h : Inv s q b) : Kept s s (pending s.cell) b := by
  intro n x k hd
  rcases (h.found n x k hd).2 with hx | hx
  · refine .inr (.inr ((pending_bit s.cell k).mpr fun hempty => ?_))
    rw [Chain.linked_nil_iff (h.slots k)] at hempty
    rw [hempty] at hx
    cases hx
  · exact .inr (.inl hx)

omit [DecidableEq σ] [DecidableEq α] in
theorem Kept.step {p : BitVec 32} (hcalls : s₀.calls <+: s.calls) (h : Inv s q b)
    (hafter : After s s' b b') (hk : Kept s₀ s p b) : Kept s₀ s' p b' := by
  intro n x k hd
  rcases hk n x k hd with hn | hx | hp
  · exact .inl (hafter.dispatched n hn)
  · by_cases hn : n ∈ s.dispatched
    · exact .inl (hafter.dispatched n hn)
    have hnumber := (h.found n x k (hd.later hcalls hn)).1
    rcases hafter.hand x hx with hx | hx
    · exact .inr (.inl hx)
    · exact .inl (hx n hnumber)
  · exact .inr (.inr hp)

omit [DecidableEq σ] [DecidableEq α] in
/-- A slot that holds a call is not empty, and its bit stays. -/
theorem Kept.narrow {p : BitVec 32} (hcalls : s₀.calls <+: s.calls) (h : Inv s q b)
    (hk : Kept s₀ s p b) : Kept s₀ s (p &&& pending s.cell) b := by
  intro n x k hd
  by_cases hn : n ∈ s.dispatched
  · exact .inl hn
  rcases Kept.taken h n x k (hd.later hcalls hn) with hn' | hx | hbit
  · exact absurd hn' hn
  · exact .inr (.inl hx)
  · refine (hk n x k hd).imp_right (Or.imp_right fun hp => ?_)
    rw [BitVec.getLsbD_and, hp, hbit]
    rfl

theorem Snapshot.inv {p : BitVec 32} (h₀ : Reachable s₀) (h : Snapshot s₀ s p) :
    s₀.calls <+: s.calls ∧ ∃ q b, Inv s q b ∧ Kept s₀ s p b := by
  induction h with
  | taken =>
    obtain ⟨q, b, hinv⟩ := h₀.inv
    exact ⟨List.prefix_refl _, q, b, hinv, Kept.taken hinv⟩
  | step _ hstep ih =>
    obtain ⟨hcalls, q, b, hinv, hk⟩ := ih
    obtain ⟨q', b', hinv', hafter⟩ := hinv.step hstep
    exact ⟨hcalls.trans hafter.calls, q', b', hinv', hk.step hcalls hinv hafter⟩
  | narrow _ ih =>
    obtain ⟨hcalls, q, b, hinv, hk⟩ := ih
    exact ⟨hcalls, q, b, hinv, hk.narrow hcalls hinv⟩

/-- At any time, also in a callback: what was pending when the snapshot was taken has been
dispatched, or a dispatch has it in hand. -/
theorem Snapshot.outcome {p : BitVec 32} (h₀ : Reachable s₀) (h : Snapshot s₀ s p)
    (hr : (dispatched s.cell p).2 = true) : ∃ b, LinkedFrom s.cell s.pc.cursor b ∧
      ∀ n x k, s₀.Deferred n x k → n ∈ s.dispatched ∨ x ∈ b := by
  obtain ⟨hcalls, q, b, hinv, hk⟩ := h.inv h₀
  refine ⟨b, hinv.hand, fun n x k hd => ?_⟩
  rcases hk.narrow hcalls hinv n x k hd with hn | hx | hp
  · exact .inl hn
  · exact .inr hx
  · have hzero : p &&& pending s.cell = 0 := by simpa [dispatched] using hr
    rw [hzero] at hp
    simp at hp

/-- The calls are dispatched at most once. Outside of a dispatch each call that has not been
dispatched is in one slot, the one that it has been pushed to, `nPending` is the number of entries
in the slots and `nDispatch` the number of calls that have been dispatched. There a snapshot is used
up only when the calls that were pending at its time have been dispatched. -/
theorem calls_accounted (h : Reachable s) :
    s.dispatched.Nodup ∧ (∀ n ∈ s.dispatched, n < s.calls.length) ∧
    (s.pc.Outside → ∃ q : Fin 4 → List α,
      (∀ k, Linked s.cell (head (.pending k)) (q k)) ∧
      (∀ n x k, s.Deferred n x k → ∀ j, x ∈ q j ↔ j = k) ∧
      (∀ k, ∀ x ∈ q k, ∃ n, s.Deferred n x k) ∧
      s.nPending = BitVec.ofNat 32 (∑ k, (q k).length) ∧
      s.nDispatch = BitVec.ofNat 32 s.dispatched.length) ∧
    ∀ s' p, Snapshot s s' p → s'.pc.Outside → (dispatched s'.cell p).2 = true →
      ∀ n x k, s.Deferred n x k → n ∈ s'.dispatched := by
  obtain ⟨q, b, hinv⟩ := h.inv
  refine ⟨hinv.once, hinv.range, fun hpc => ?_, fun s' p hp hpc hr n x k hd => ?_⟩
  · have hb : b = [] := hinv.hand.eq_nil hpc.cursor
    have hpending := hinv.nPending
    have hdispatch := hinv.nDispatch
    rw [hb, hpc.passed, List.length_nil, Nat.add_zero, BitVec.add_zero] at hpending
    rw [hpc.passed, BitVec.add_zero] at hdispatch
    refine ⟨q, hinv.slots, fun n x k hd => hinv.mem_slot_iff hb hd, fun k x hx => ?_, hpending,
      hdispatch⟩
    obtain ⟨n, -, hd⟩ := hinv.filed k x hx
    exact ⟨n, hd⟩
  · obtain ⟨b', hhand, hall⟩ := hp.outcome h hr
    obtain rfl : b' = [] := hhand.eq_nil hpc.cursor
    exact (hall n x k hd).resolve_right List.not_mem_nil

/-! ## An example -/

/-- A record whose owner has deferred the entry `7`. -/
def filed : State Unit ℕ Unit :=
  State.call 7 () ⟨0, 0, 0, 0, 0, fun _ => none, fun _ => (), .idle none, [], fun _ => none, []⟩

/-- The owner polls in the second epoch after that. -/
def polling : State Unit ℕ Unit :=
  { filed with
    global := 2
    pc := .poll none 2 }

/-- The callback of the entry has deferred the entry `9`. -/
def refiling : State Unit ℕ Unit :=
  (((polling.run .active).run .active).run .active).call 9 ()

/-- The poll has returned. -/
def refiled : State Unit ℕ Unit := ((refiling.run .active).run .active).run .active

theorem filed_reachable : Reachable filed := by
  refine .step (.registered ?_) (.call 7 () trivial ?_)
  · exact ⟨rfl, rfl, rfl, fun _ => rfl, rfl, rfl, fun _ => rfl, rfl⟩
  · rintro ⟨n, hn, -⟩
    cases hn

theorem refiled_snapshot : Snapshot filed refiled 1 := by
  have hpolling : Snapshot filed polling 1 :=
    .step (.step (.step .taken .tick) .tick) (.poll none rfl)
  have hcallback := ((hpolling.step (.run .active)).step (.run .active)).step (.run .active)
  have hcall : Snapshot filed refiling 1 := by
    refine hcallback.step (.call 9 () trivial ?_)
    rintro ⟨n, hn, -⟩
    cases hn
  exact ((hcall.step (.run .active)).step (.run .active)).step (.run .active)

theorem calls_accounted_refiled :
    pending refiled.cell = 8#32 ∧ refiled.nPending = 1#32 ∧ 0 ∈ refiled.dispatched :=
  ⟨by decide, by decide, (calls_accounted filed_reachable).2.2.2 refiled 1 refiled_snapshot trivial
    (by decide) 0 7 0 ⟨rfl, by decide⟩⟩

/-- The owner has deferred the entry `8` in the same epoch. -/
def filedTwice : State Unit ℕ Unit := filed.call 8 ()

/-- `ck_epoch_reclaim` runs the callback of the entry `8`. -/
def reclaiming : State Unit ℕ Unit := (filedTwice.reclaim.run .active).run .active

/-- The slot has been emptied before any of its callbacks runs (`ck_epoch.c:379`). In the first
callback `ck_epoch_dispatched` returns true, while the call of the entry `7` has not been dispatched
and the entry is in no slot. -/
theorem dispatched_in_callback :
    Reachable filedTwice ∧ Snapshot filedTwice reclaiming 1 ∧ filedTwice.Deferred 0 7 0 ∧
      reclaiming.pc.Free ∧ (dispatched reclaiming.cell 1).2 = true ∧ 0 ∉ reclaiming.dispatched ∧
      ∀ k, reclaiming.cell (head (.pending k)) = none := by
  have hcall : Step filed filedTwice := by
    refine .call 8 () trivial ?_
    rintro ⟨n, hn, -⟩
    cases hn
  have hreclaim : Step filedTwice filedTwice.reclaim := .reclaim rfl
  exact ⟨filed_reachable.step hcall,
    ((Snapshot.taken.step hreclaim).step (.run .active)).step (.run .active), ⟨rfl, by decide⟩,
    trivial, by decide, by decide, by decide⟩

end ConcurrencyKit.Epoch.Calls
