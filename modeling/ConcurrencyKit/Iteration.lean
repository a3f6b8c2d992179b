import ConcurrencyKit.Hs.Concurrent
import ConcurrencyKit.Ht.Refinement
import ConcurrencyKit.Misc.Cursor
import ConcurrencyKit.Rhs.Refinement

/-!
# Iterators

`ck_hs_next`, `ck_rhs_next` and `ck_ht_next` go through the slots of a map and return what is
stored. Between two calls that change a table they list what lookups find, each thing once. The
iterator of `ck_hs_next_spmc` may be used beside the writer; it stays with the map that was in place
at its first call.
-/

namespace ConcurrencyKit

/-- A lookup in a set that is listed. -/
theorem KeyedSet.lookup_eq_find? {V : Type} {r : Setoid V} {S : KeyedSet V r} {l : List V}
    {same : V → Bool} {key : V} (h : ∀ v, v ∈ l ↔ v ∈ S) (hsame : ∀ v, same v = true ↔ r v key) :
    S.lookup key = l.find? same := by
  cases hfind : l.find? same with
  | some v =>
    exact KeyedSet.lookup_eq_some.mpr
      ⟨(h v).mp (List.mem_of_find?_eq_some hfind), (hsame v).mp (List.find?_some hfind)⟩
  | none =>
    refine KeyedSet.lookup_eq_none.mpr fun v hv hr => ?_
    exact List.find?_eq_none.mp hfind v ((h v).mpr hv) ((hsame v).mpr hr)

end ConcurrencyKit

/-! ## `ck_hs_next` -/

namespace ConcurrencyKit.Hs

variable {V : Type} [DecidableEq V] {cfg : Config V}

omit [DecidableEq V] in
/-- `_ck_hs_next` (`ck_hs.c:128-154`) with the cursor at `offset`. -/
def Map.next (m : Map V) (offset : Nat) : Option V × Nat :=
  Cursor.next (fun s => (m.entries s).obj?) m.capacity offset

omit [DecidableEq V] in
/-- `ck_hs_count` (`ck_hs.c:202-207`). -/
def State.count (hs : State V) : Nat := hs.map.nEntries

/-- The calls of `ck_hs_next` return the objects of `l` and then nothing. They are as many as
`ck_hs_count` says, with different keys, and `ck_hs_get` returns the one with its key. -/
structure State.Lists (cfg : Config V) (hs : State V) (l : List V) : Prop where
  yields : Cursor.Yields hs.map.next 0 l
  distinct : l.Pairwise fun u v => cfg.keyMatch u v = false
  get : ∀ key, hs.get cfg (cfg.hf key) key = l.find? fun v => cfg.keyMatch v key
  count : l.length = hs.count

omit [DecidableEq V] in
theorem obj?_eq_some {w : Slot V} {v : V} : w.obj? = some v ↔ ∃ t, w = .entry t v := by
  cases w <;> simp [Slot.obj?]

theorem lists_of_ok (hl : cfg.Lawful) {hs : State V} (hok : hs.Ok cfg) :
    ∃ l, hs.Lists cfg l := by
  obtain ⟨S, rep⟩ := Represents.exists hl hok.valid
  have hmem : ∀ v, v ∈ Cursor.slots (fun s => (hs.map.entries s).obj?) 0 hs.map.capacity ↔
      v ∈ S := by
    intro v
    rw [Cursor.mem_slots, rep.mem]
    constructor
    · rintro ⟨s, -, hs⟩
      exact ⟨s, obj?_eq_some.mp hs⟩
    · rintro ⟨s, t, hs⟩
      exact ⟨s, hok.valid.live_lt hs, obj?_eq_some.mpr ⟨t, hs⟩⟩
  refine ⟨_, Cursor.yields_slots _ _, Cursor.pairwise_slots fun s s' u v hlt hu hv => ?_,
    fun key => ?_, ?_⟩
  · obtain ⟨t, hu⟩ := obj?_eq_some.mp hu
    obtain ⟨t', hv⟩ := obj?_eq_some.mp hv
    by_contra hmatch
    exact hlt.ne (rep.once s s' t t' u v hu hv (Bool.eq_true_of_not_eq_false hmatch))
  · rw [State.get, rep.probed hok.valid (by simp)
      (Map.probe_within cfg hs.map (cfg.hf key) key)]
    exact KeyedSet.lookup_eq_find? hmem fun v => Iff.rfl
  · have hlive : (fun w : Slot V => w.obj?.isSome) = Slot.isLive := by
      funext w
      cases w <;> rfl
    rw [Cursor.length_slots, hlive]
    exact hok.accounts.live.symm

theorem run_ok (hl : cfg.Lawful) {entries : Nat} {hs₀ hs : State V}
    (hinit : init cfg entries = some hs₀) {ops : List (Op V)} (hproper : ProperRun cfg hs₀ ops)
    {rs : List (Result V)} (hrun : run cfg hs₀ ops = .ok (rs, hs)) : hs.Ok cfg := by
  rcases run_cases hl (init_ok hinit) (init_represents hl hinit) hproper with
    ⟨rs', hs', hr, hev, hacc, -⟩ | ⟨hs', hr, -⟩
  · rw [hr] at hrun
    cases hrun
    exact (init_ok hinit).of_evolves hl hev hacc
  · rw [hr] at hrun
    cases hrun

end ConcurrencyKit.Hs

/-! ## `ck_rhs_next` -/

namespace ConcurrencyKit.Rhs

variable {V : Type} [DecidableEq V] {cfg : Config V} {hl : cfg.Lawful}

omit [DecidableEq V] in
/-- `ck_rhs_next` (`ck_rhs.c:279-302`) with the cursor at `offset`. -/
def Map.next (m : Map V) (offset : Nat) : Option V × Nat :=
  Cursor.next (fun s => (m.entries s).map Word.obj) m.capacity offset

/-- The calls of `ck_rhs_next` return the objects of `l` and then nothing. They have different
keys, and `ck_rhs_get` returns the one with its key. -/
structure State.Lists (cfg : Config V) (hs : State V) (l : List V) : Prop where
  yields : Cursor.Yields hs.map.next 0 l
  distinct : l.Pairwise fun u v => cfg.keyMatch u v = false
  get : ∀ key, hs.get cfg (cfg.hf key) key = l.find? fun v => cfg.keyMatch v key

theorem lists_of_settled {hs : State V} {S : KeyedSet V hl.keys} (h : Settled hl hs.map S) :
    ∃ l, hs.Lists cfg l := by
  have hmem : ∀ v, v ∈ Cursor.slots (fun s => (hs.map.entries s).map Word.obj) 0
      hs.map.capacity ↔ v ∈ S := by
    intro v
    rw [Cursor.mem_slots]
    constructor
    · rintro ⟨s, hs, he⟩
      obtain ⟨w, hw, rfl⟩ := Option.map_eq_some_iff.mp he
      exact (h.represents.word hs hw).1
    · intro hv
      obtain ⟨s, hs, hw⟩ := h.represents.mem hv
      exact ⟨s, hs, by rw [hw]; rfl⟩
  have hcoe : (Cursor.slots (fun s => (hs.map.entries s).map Word.obj) 0
      hs.map.capacity : Multiset V) = S.carrier.val := by
    have hstored := h.represents
    unfold Represents Map.stored at hstored
    rw [Cursor.coe_slots (p := Option.isSome) hs.map.entries (Option.map Word.obj) fun w => by simp,
      hstored, Multiset.filterMap_map]
    exact Multiset.filterMap_some _
  have hnodup := S.carrier.nodup
  rw [← hcoe, Multiset.coe_nodup] at hnodup
  refine ⟨_, Cursor.yields_slots _ _, hnodup.imp_of_mem fun hu hv hne => ?_, fun key => ?_⟩
  · by_contra hmatch
    rw [Bool.not_eq_false] at hmatch
    exact hne (S.unique _ ((hmem _).mp hu) _ ((hmem _).mp hv) hmatch)
  · rw [State.get, h.probeBound key .noRh rfl (by simp)]
    exact KeyedSet.lookup_eq_find? hmem fun v => Iff.rfl

theorem run_open {hs hs' : State V} {S : KeyedSet V hl.keys} {ops : List (Op V)}
    {rs : List (Result V)} (h : Open hl hs S) (hproper : ProperRun cfg hs ops)
    (hrun : run cfg hs ops = .ok (rs, hs')) : ∃ S', Open hl hs' S' := by
  induction ops generalizing hs S rs with
  | nil =>
    cases hrun
    exact ⟨S, h⟩
  | cons op ops ih =>
    have hcall := step_called h hproper.1
    rw [run] at hrun
    cases hstep : step cfg hs op with
    | error hs₁ =>
      rw [hstep] at hrun
      cases hrun
    | ok p =>
      obtain ⟨r, hs₁⟩ := p
      rw [hstep] at hcall hrun
      obtain ⟨S₁, h₁, -⟩ := Stepped.next h hcall
      cases hrest : run cfg hs₁ ops with
      | error hs₂ =>
        simp only [bind, Except.bind, hrest] at hrun
        cases hrun
      | ok p =>
        simp only [bind, Except.bind, hrest] at hrun
        cases hrun
        exact ih h₁ (hproper.2 r hs₁ hstep) hrest

end ConcurrencyKit.Rhs

/-! ## `ck_ht_next` -/

namespace ConcurrencyKit.Ht

variable {cfg : Config}

/-- `ck_ht_next` (`ck_ht.c:608-630`) with the cursor at `offset`. -/
def Map.next (m : Map) (offset : Nat) : Option Entry × Nat :=
  Cursor.next (fun s => if (m.entries s).live then some (m.entries s) else none) m.capacity offset

/-- The calls of `ck_ht_next` return the entries of `l` and then nothing. They are as many as
`ck_ht_count` says, with different keys, and `ck_ht_get_spmc` returns the one with its key. -/
structure State.Lists (cfg : Config) (ht : State) (l : List Entry) : Prop where
  yields : Cursor.Yields ht.map.next 0 l
  distinct : l.Pairwise fun a b => cfg.ident a ≠ cfg.ident b
  get : ∀ x, ht.map.Fits cfg x →
    ht.get cfg (cfg.hashOf x) x = l.find? fun e => cfg.ident e = cfg.ident x
  count : l.length = ht.count

theorem lists_of_ok (hcov : cfg.Covered) {ht : State} (hok : ht.Ok cfg) :
    ∃ l, ht.Lists cfg l := by
  have hslot : ∀ {s e}, (if (ht.map.entries s).live then some (ht.map.entries s) else none) =
      some e ↔ ht.map.entries s = e ∧ e.live = true := by
    intro s e
    split
    · rename_i hlive
      exact ⟨fun h => ⟨Option.some.inj h, Option.some.inj h ▸ hlive⟩, fun h => congrArg some h.1⟩
    · rename_i hlive
      exact ⟨fun h => absurd h.symm (Option.some_ne_none e), fun h => absurd (h.1 ▸ h.2) hlive⟩
  have hkey : Names cfg cfg.ident := fun _ _ => Iff.rfl
  obtain ⟨F, rep⟩ := Represents.exists hkey hok.valid hok.accounts
  refine ⟨_, Cursor.yields_slots _ _, Cursor.pairwise_slots fun s s' a b hlt ha hb => ?_,
    fun x fits => ?_, ?_⟩
  · obtain ⟨rfl, ha⟩ := hslot.mp ha
    obtain ⟨rfl, hb⟩ := hslot.mp hb
    intro hident
    exact hlt.ne (rep.once s s' ha hb hident)
  · rw [get_eq hkey hcov hok.valid rep fits]
    cases hfind : List.find? _ _ with
    | some e =>
      obtain ⟨s, -, hs⟩ := Cursor.mem_slots.mp (List.mem_of_find?_eq_some hfind)
      obtain ⟨hs, hlive⟩ := hslot.mp hs
      have hident := List.find?_some hfind
      exact (rep.lookup _ _).mpr ⟨of_decide_eq_true hident, hlive, s, hs⟩
    | none =>
      refine Option.eq_none_iff_forall_ne_some.mpr fun e he => ?_
      obtain ⟨hident, hlive, s, hs⟩ := (rep.lookup _ _).mp he
      have hlt : s < ht.map.capacity := hok.valid.live_lt (hs ▸ hlive)
      exact List.find?_eq_none.mp hfind e (Cursor.mem_slots.mpr ⟨s, hlt, hslot.mpr ⟨hs, hlive⟩⟩)
        (decide_eq_true hident)
  · have hlive : (fun e : Entry => (if e.live then some e else none).isSome) = Entry.live := by
      funext e
      cases e.live <;> rfl
    refine (Cursor.length_slots ht.map.entries fun e => if e.live then some e else none).trans ?_
    rw [hlive]
    exact hok.accounts.symm

theorem run_ok (hcov : cfg.Covered) {entries : Nat} {ht₀ ht : State}
    (hinit : init cfg entries = some ht₀) {ops : List Op} (hproper : ProperRun cfg ht₀ ops)
    {rs : List Result} (hrun : run cfg ht₀ ops = .ok (rs, ht)) : ht.Ok cfg := by
  have hkey : Names cfg cfg.ident := fun _ _ => Iff.rfl
  rcases run_cases hkey hcov (init_ok hinit) (init_represents hkey hinit) hproper with
    ⟨rs', ht', hr, hok, -⟩ | ⟨ht', hr, -⟩
  · rw [hr] at hrun
    cases hrun
    exact hok
  · rw [hr] at hrun
    cases hrun

end ConcurrencyKit.Ht

namespace ConcurrencyKit

/-- Between the calls of a run the iterators of the three tables come to an end, and list what
lookups find. A `ck_rhs` must not have been crowded. -/
theorem next_lists_stored :
    (∀ {V : Type} [DecidableEq V] (cfg : Hs.Config V) (_ : cfg.Lawful) (entries : Nat)
      (hs₀ hs : Hs.State V) (ops : List (Hs.Op V)) (rs : List (Hs.Result V)),
      Hs.init cfg entries = some hs₀ → Hs.ProperRun cfg hs₀ ops →
      Hs.run cfg hs₀ ops = .ok (rs, hs) → ∃ l, hs.Lists cfg l) ∧
    (∀ {V : Type} [DecidableEq V] (cfg : Rhs.Config V) (_ : cfg.Lawful) (entries : Nat)
      (hs₀ hs : Rhs.State V) (ops : List (Rhs.Op V)) (rs : List (Rhs.Result V)),
      Rhs.init cfg entries = some hs₀ → Rhs.ProperRun cfg hs₀ ops →
      Rhs.run cfg hs₀ ops = .ok (rs, hs) → Rhs.Uncrowded cfg hs.stores → ∃ l, hs.Lists cfg l) ∧
    ∀ (cfg : Ht.Config) (_ : cfg.Covered) (entries : Nat) (ht₀ ht : Ht.State) (ops : List Ht.Op)
      (rs : List Ht.Result), Ht.init cfg entries = some ht₀ → Ht.ProperRun cfg ht₀ ops →
      Ht.run cfg ht₀ ops = .ok (rs, ht) → ∃ l, ht.Lists cfg l := by
  refine ⟨?_, ?_, ?_⟩
  · intro V _ cfg hl entries hs₀ hs ops rs hinit hproper hrun
    exact Hs.lists_of_ok hl (Hs.run_ok hl hinit hproper hrun)
  · intro V _ cfg hl entries hs₀ hs ops rs hinit hproper hrun hfew
    obtain ⟨S, hopen⟩ := Rhs.run_open (Rhs.init_open hl hinit) hproper hrun
    exact Rhs.lists_of_settled (hopen.ready hfew)
  · intro cfg hcov entries ht₀ ht ops rs hinit hproper hrun
    exact Ht.lists_of_ok hcov (Ht.run_ok hcov hinit hproper hrun)

/-- The calls leave two objects in a `ck_hs` and two words in a `ck_ht`, and a `ck_rhs` that has
grown. -/
theorem next_lists_stored_someCalls :
    (∃ hs₀ rs hs l, Hs.init Hs.numbers 8 = some hs₀ ∧
      Hs.run Hs.numbers hs₀ Hs.someCalls = .ok (rs, hs) ∧ hs.count = 2 ∧
      hs.Lists Hs.numbers l) ∧
    (∃ hs₀ rs hs l, Rhs.init Rhs.boundedHash 8 = some hs₀ ∧
      Rhs.run Rhs.boundedHash hs₀ Rhs.settingCalls = .ok (rs, hs) ∧ hs.map.capacity = 64 ∧
      hs.Lists Rhs.boundedHash l) ∧
    ∃ ht₀ rs ht l, Ht.init Ht.words 8 = some ht₀ ∧
      Ht.run Ht.words ht₀ Ht.wordCalls = .ok (rs, ht) ∧ ht.count = 2 ∧ ht.Lists Ht.words l := by
  refine ⟨?_, ?_, ?_⟩
  · have heval : ((Hs.init Hs.numbers 8).map fun hs =>
        (Hs.run Hs.numbers hs Hs.someCalls).toOption.map fun p => p.2.count) = some (some 2) := by
      decide +kernel
    obtain ⟨hs₀, hinit, hsome⟩ := Option.map_eq_some_iff.mp heval
    cases hrun : Hs.run Hs.numbers hs₀ Hs.someCalls with
    | error e =>
      rw [hrun] at hsome
      cases hsome
    | ok p =>
      rw [hrun] at hsome
      obtain ⟨l, hl⟩ := next_lists_stored.1 Hs.numbers Hs.numbers_lawful 8 hs₀ p.2 Hs.someCalls p.1
        hinit (Hs.someCalls_proper hinit) hrun
      exact ⟨hs₀, p.1, p.2, l, hinit, hrun, Option.some.inj hsome, hl⟩
  · have heval : ((Rhs.init Rhs.boundedHash 8).map fun hs =>
        (Rhs.run Rhs.boundedHash hs Rhs.settingCalls).toOption.map fun p =>
          (p.2.map.capacity, Rhs.fewSlots p.2.stores)) = some (some (64, true)) := by
      decide +kernel
    obtain ⟨hs₀, hinit, hsome⟩ := Option.map_eq_some_iff.mp heval
    cases hrun : Rhs.run Rhs.boundedHash hs₀ Rhs.settingCalls with
    | error e =>
      rw [hrun] at hsome
      cases hsome
    | ok p =>
      rw [hrun] at hsome
      obtain ⟨hcapacity, hfew⟩ := Prod.mk.inj (Option.some.inj hsome)
      obtain ⟨l, hl⟩ := next_lists_stored.2.1 Rhs.boundedHash Rhs.boundedHash_lawful 8 hs₀ p.2
        Rhs.settingCalls p.1 hinit (Rhs.settingCalls_proper hinit) hrun
        (Rhs.fewSlots_uncrowded hfew)
      exact ⟨hs₀, p.1, p.2, l, hinit, hrun, hcapacity, hl⟩
  · have heval : ((Ht.init Ht.words 8).map fun ht =>
        (Ht.run Ht.words ht Ht.wordCalls).toOption.map fun p => p.2.count) = some (some 2) := by
      decide +kernel
    obtain ⟨ht₀, hinit, hsome⟩ := Option.map_eq_some_iff.mp heval
    cases hrun : Ht.run Ht.words ht₀ Ht.wordCalls with
    | error e =>
      rw [hrun] at hsome
      cases hsome
    | ok p =>
      rw [hrun] at hsome
      obtain ⟨l, hl⟩ := next_lists_stored.2.2 Ht.words (fun _ => rfl) 8 ht₀ p.2 Ht.wordCalls p.1
        hinit (Ht.properRun_direct rfl fun op hop r hr => by
          fin_cases hop <;> cases hr <;> exact ⟨by decide, by decide⟩) hrun
      exact ⟨ht₀, p.1, p.2, l, hinit, hrun, Option.some.inj hsome, hl⟩

end ConcurrencyKit

/-! ## `ck_hs_next_spmc` -/

namespace ConcurrencyKit.Hs.Memory

open Beside (Call)

variable {V : Type}

/-- What an iterator sees of the memory. -/
def slots : Cursor.Shared (Memory V) V where
  current := current
  capacity mem map := (mem.maps map).capacity
  slot mem map s := ((mem.maps map).entries s).obj?

/-- `ck_hs_next_spmc` (`ck_hs.c:179-189`), called until it returns false. -/
abbrev nextSpmc : Beside.Program (Memory V) Unit (Cursor.Pc V) := Cursor.walk slots

variable [DecidableEq V] {cfg : Config V}

omit [DecidableEq V] in
theorem apply_capacity {m : Map V} {st : Store V} (h : ∀ update, st ≠ .map update) :
    (m.apply st).capacity = m.capacity := by
  cases st with
  | map update => exact absurd rfl (h update)
  | entry | generation | probeMaximum | probeBound | nEntries | tombstones => rfl

/-- No step of the writer changes the size of a map. -/
theorem write_capacity {mem mem' : Memory V} (hl : cfg.Lawful) (hi : mem.Inv cfg)
    (hw : Write cfg mem mem') {map : Nat} (hle : map ≤ mem.current) :
    (mem'.maps map).capacity = (mem.maps map).capacity := by
  cases hw with
  | @store st rest htodo =>
    rcases store_cases mem rest st with ⟨_, -, -, -, -, h⟩ | ⟨hmap, -, hm, -, -, h⟩
    · rw [h map hle]
    · by_cases hcur : map = mem.current
      · rw [hcur, hm, apply_capacity hmap]
      · rw [h map hcur]
  | call op idle ready proper =>
    obtain ⟨sts, w, he, -, -⟩ := begin_cases hl hi idle ready proper
    rw [he]

theorem slots_guarantee (hl : cfg.Lawful) :
    Cursor.Guarantee (slots (V := V)) (Inv cfg) (Write cfg) where
  inv hi hw := hi.write hl hw
  current_le hi hw := (current_le hl hi hw).1
  capacity hi hw hle := write_capacity hl hi hw hle
  retired {mem mem' map} hi hw hle hne := by
    change (fun s => ((mem'.maps map).entries s).obj?) = fun s => ((mem.maps map).entries s).obj?
    rw [retired_same hl hi hw hle hne]

/-- What an iteration over map `map` has returned, with the slots where it was found. -/
structure Iterated (c : Call (Memory V) Unit (Cursor.Pc V)) (map : Nat) (found : List (Nat × V)) :
    Prop where
  /-- The map was the current one at some moment of the iteration. -/
  placed : ∃ mem ∈ c.moments, mem.current = map
  /-- Each slot is returned at most once, in the order of the slots. -/
  sorted : (found.map Prod.fst).Pairwise (· < ·)
  /-- What is returned was stored at some moment of the iteration. -/
  was : ∀ s v, (s, v) ∈ found →
    ∃ mem ∈ c.moments, mem.current = map ∧ ∃ t, (mem.maps map).entries s = .entry t v
  /-- An object that stays where it is throughout the iteration is returned. -/
  kept : ∀ s v, (∀ mem ∈ c.moments, map ≤ mem.current →
    ∃ t, (mem.maps map).entries s = .entry t v) → (s, v) ∈ found

/-- An iteration beside the writer that has come to its end. -/
theorem next_spmc_beside_writer {ι : Type} [DecidableEq ι] (hl : cfg.Lawful) {entries : Nat}
    {hs : State V} (hinit : init cfg entries = some hs)
    {s : Beside.System (Memory V) Unit (Cursor.Pc V) ι}
    (hr : Beside.System.Reachable nextSpmc (Write cfg) (start hs) s) {i : ι}
    {c : Call (Memory V) Unit (Cursor.Pc V)} (hc : s.calls i = some c) {map : Nat}
    {found : List (Nat × V)} (hended : c.pc = .ended map found) : Iterated c map found := by
  have hg := slots_guarantee hl
  have hi := start_inv hinit
  obtain ⟨mem, hmem, hle, h⟩ := Cursor.reachable_ended hg hi hr hc hended
  refine ⟨h.placed, h.sorted, fun s v he => ?_, fun s v hall => ?_⟩
  · obtain ⟨m, hm, hcur, hslot⟩ := h.was _ he
    exact ⟨m, hm, hcur, obj?_eq_some.mp hslot⟩
  · have hinv := ((Beside.reachable_moments hr hi hg.inv).2 i c hc).2 mem hmem
    obtain ⟨ph, hst⟩ := hinv.standing map hle
    obtain ⟨t, ht⟩ := hall mem hmem hle
    exact h.kept s v (hst.1.live_lt ht) fun m hm hm' => obj?_eq_some.mpr (hall m hm hm')

/-- The iterator has looked at one slot when the writer puts `1`. -/
theorem next_spmc_beside_writer_put :
    ∃ s : Beside.System (Memory Nat) Unit (Cursor.Pc Nat) Unit,
      (s.calls ()).map Call.pc = some (.ended 0 [(1, 1)]) ∧
        ∀ c, s.calls () = some c → c.pc = .ended 0 [(1, 1)] → Iterated c 0 [(1, 1)] := by
  have h₀ : Beside.System.Reachable (ι := Unit) nextSpmc (Write numbers) (start numbersStart)
      ⟨start numbersStart, fun _ => none⟩ := .refl
  have h₁ := h₀.invoke () () fun c hc => by cases hc
  have h₂ := h₁.loads () 3
  have h₃ := h₂.write (.call (.put 1) rfl rfl trivial)
  have h₄ := h₃.write (.store rfl)
  have h₅ := h₄.write (.store rfl)
  have h₆ := h₅.write (.store rfl)
  have h₇ := h₆.loads () 9
  exact ⟨_, by decide +kernel, fun c hc hended =>
    next_spmc_beside_writer numbers_lawful rfl h₇ hc hended⟩

end ConcurrencyKit.Hs.Memory
