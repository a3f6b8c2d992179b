import Mathlib.Logic.Relation
import Mathlib.Tactic

/-!
# Lookups validated by a generation counter

One writer changes a probed table store by store while readers look keys up without
locks. A reader loads the current map, a generation cell, the probe bound of its key and
then the probed slots one by one; it reloads the generation cell at the end and starts
over if the cell has changed. The bound is a saturating word per home slot that is backed
by a maximum for the whole map.

A reader of one key sees a map only through a `View`, the table reordered by probe index.
The development is about arbitrary shared memory with such views. What a writer has to
guarantee is stated per key, as an *anchor*: a probe index that holds the key, and that
the writer gives up only by signalling the generation cell or by deleting the key. From
the guarantee alone, a lookup of a key that is stored throughout the call finds it
(`lookup_ne_none`), and what any lookup returns was stored at some moment of the call
(`lookup_stored`).
-/

namespace ConcurrencyKit.Lookup

/-- What a probed slot shows to a reader of a fixed key. -/
inductive Probe (V : Type) where
  | vacant
  | other
  | hit (v : V)

/-- A map in the eyes of a reader of a fixed key: the slots in probe order, the bound word of
the key's home slot if the map keeps such words, the bound shared by all keys, and the
generation cell of the key. -/
structure View (V : Type) where
  probe : Nat → Probe V
  bound : Option Nat
  maximum : Nat
  generation : Nat

variable {σ K V ι : Type}

/-- Shared memory with the maps published in it. `saturated` is the bound word that refers the
reader to `maximum`, and `signals` counts the changes of generation cells so far. -/
structure Shared (σ K V : Type) where
  saturated : Nat
  current : σ → Nat
  view : σ → Nat → K → View V
  signals : σ → Nat

namespace View

variable (vw : View V)

/-- The probe bound a reader computes if the map does not change meanwhile. -/
def limit (saturated : Nat) : Nat :=
  match vw.bound with
  | none => vw.maximum
  | some w => if w = saturated then vw.maximum else w

/-- The probe loop on a map that does not change: `remaining` probes from index `i` on. -/
def scan : Nat → Nat → Option V
  | 0, _ => none
  | remaining + 1, i =>
    match vw.probe i with
    | .vacant => none
    | .hit v => some v
    | .other => scan remaining (i + 1)

/-- The object a lookup finds if it runs alone. -/
def lookup (saturated : Nat) : Option V := vw.scan (vw.limit saturated) 0

/-- Whichever way a reader obtains its probe bound, the bound covers index `n`. -/
def Covers (saturated n : Nat) : Prop :=
  n < vw.maximum ∧ ∀ w, vw.bound = some w → w ≠ saturated → n < w

/-- The key is at probe index `n` and a reader that gets so far sees it. -/
structure Good (saturated n : Nat) : Prop where
  hit : ∃ v, vw.probe n = .hit v
  open_path : ∀ k < n, vw.probe k ≠ .vacant
  covers : vw.Covers saturated n

theorem scan_eq_some {v : V} {remaining i : Nat} :
    vw.scan remaining i = some v ↔
      ∃ n, i ≤ n ∧ n < i + remaining ∧ vw.probe n = .hit v ∧
        ∀ k, i ≤ k → k < n → vw.probe k = .other := by
  induction remaining generalizing i with
  | zero =>
    simp only [scan, Nat.add_zero, reduceCtorEq, false_iff]
    rintro ⟨n, h1, h2, -⟩
    omega
  | succ remaining ih =>
    cases hp : vw.probe i with
    | vacant =>
      simp only [scan, hp, reduceCtorEq, false_iff]
      rintro ⟨n, hin, -, hn, hk⟩
      rcases Nat.eq_or_lt_of_le hin with rfl | hlt
      · rw [hp] at hn; cases hn
      · have := hk i le_rfl hlt
        rw [hp] at this; cases this
    | other =>
      simp only [scan, hp, ih]
      constructor
      · rintro ⟨n, hin, hn, hv, hk⟩
        refine ⟨n, by omega, by omega, hv, fun k hik hkn => ?_⟩
        rcases Nat.eq_or_lt_of_le hik with rfl | hlt
        · exact hp
        · exact hk k hlt hkn
      · rintro ⟨n, hin, hn, hv, hk⟩
        have hne : n ≠ i := by rintro rfl; rw [hp] at hv; cases hv
        exact ⟨n, by omega, by omega, hv, fun k hik hkn => hk k (by omega) hkn⟩
    | hit w =>
      simp only [scan, hp, Option.some.injEq]
      constructor
      · rintro rfl
        exact ⟨i, le_rfl, by omega, hp, fun k hik hki => absurd hki (by omega)⟩
      · rintro ⟨n, hin, -, hv, hk⟩
        rcases Nat.eq_or_lt_of_le hin with rfl | hlt
        · rw [hp] at hv; cases hv; rfl
        · have := hk i le_rfl hlt
          rw [hp] at this; cases this

theorem Covers.lt_limit {saturated n : Nat} (h : vw.Covers saturated n) :
    n < vw.limit saturated := by
  unfold limit
  cases hb : vw.bound with
  | none => exact h.1
  | some w =>
    dsimp only
    split
    · exact h.1
    · exact h.2 w hb ‹_›

/-- A good index is found by a lookup that runs alone. -/
theorem Good.lookup_ne_none {saturated n : Nat} (h : vw.Good saturated n) :
    vw.lookup saturated ≠ none := by
  classical
  obtain ⟨v, hv⟩ := h.hit
  have hex : ∃ j, ∃ u, vw.probe j = .hit u := ⟨n, v, hv⟩
  obtain ⟨u, hu⟩ := Nat.find_spec hex
  have hle : Nat.find hex ≤ n := Nat.find_min' hex ⟨v, hv⟩
  have hlim := h.covers.lt_limit
  have : vw.lookup saturated = some u := by
    refine vw.scan_eq_some.mpr ⟨Nat.find hex, Nat.zero_le _, by omega, hu, fun k _ hk => ?_⟩
    have hnohit := Nat.find_min hex hk
    cases hp : vw.probe k with
    | vacant => exact absurd hp (h.open_path k (by omega))
    | other => rfl
    | hit w => exact absurd ⟨w, hp⟩ hnohit
  rw [this]
  simp

end View

/-! ## Readers -/

/-- Where a lookup stands, with the values it has loaded so far. -/
inductive Pc (V : Type) where
  | loadMap
  | loadGeneration (map : Nat)
  | loadBound (map g : Nat)
  | loadMaximum (map g : Nat)
  | probe (map g bound i : Nat)
  | recheck (map g : Nat) (object : Option V)
  | done (object : Option V)

/-- One step of a lookup of `key`: at most one load from shared memory. -/
def Pc.load (S : Shared σ K V) (mem : σ) (key : K) : Pc V → Pc V
  | .loadMap => .loadGeneration (S.current mem)
  | .loadGeneration map => .loadBound map (S.view mem map key).generation
  | .loadBound map g =>
    match (S.view mem map key).bound with
    | none => .probe map g (S.view mem map key).maximum 0
    | some w => if w = S.saturated then .loadMaximum map g else .probe map g w 0
  | .loadMaximum map g => .probe map g (S.view mem map key).maximum 0
  | .probe map g bound i =>
    if i = bound then .recheck map g none
    else
      match (S.view mem map key).probe i with
      | .vacant => .recheck map g none
      | .hit v => .recheck map g (some v)
      | .other => .probe map g bound (i + 1)
  | .recheck map g object =>
    if (S.view mem map key).generation = g then .done object else .loadMap
  | .done object => .done object

/-- A lookup call: its key, where it stands, and the memory at each moment of the call so far,
the latest first and the invocation last. -/
structure Call (σ K V : Type) where
  key : K
  pc : Pc V
  start : σ
  moments : List σ

/-- A call in progress witnesses one more state of the memory. -/
def Call.observe (mem : σ) (c : Call σ K V) : Call σ K V :=
  match c.pc with
  | .done _ => c
  | _ => { c with moments := mem :: c.moments }

/-- The writer's memory and the calls of the readers. -/
structure System (σ K V ι : Type) where
  mem : σ
  calls : ι → Option (Call σ K V)

/-- One step of the writer or of one reader. -/
inductive System.Step [DecidableEq ι] (S : Shared σ K V) (write : σ → σ → Prop) :
    System σ K V ι → System σ K V ι → Prop
  | write {s : System σ K V ι} {mem : σ} (h : write s.mem mem) :
      Step S write s ⟨mem, fun i => (s.calls i).map (Call.observe mem)⟩
  | invoke {s : System σ K V ι} (i : ι) (key : K)
      (idle : ∀ c, s.calls i = some c → ∃ object, c.pc = .done object) :
      Step S write s
        ⟨s.mem, Function.update s.calls i (some ⟨key, .loadMap, s.mem, [s.mem]⟩)⟩
  | load {s : System σ K V ι} (i : ι) {c : Call σ K V} (h : s.calls i = some c) :
      Step S write s
        ⟨s.mem, Function.update s.calls i (some { c with pc := c.pc.load S s.mem c.key })⟩

/-- States reached from memory `mem` with no call in progress. -/
def System.Reachable [DecidableEq ι] (S : Shared σ K V) (write : σ → σ → Prop) (mem : σ)
    (s : System σ K V ι) : Prop :=
  Relation.ReflTransGen (System.Step S write) ⟨mem, fun _ => none⟩ s

/-- A reader that runs for `k` steps while nobody else does. -/
theorem System.Reachable.loads [DecidableEq ι] {S : Shared σ K V} {write : σ → σ → Prop}
    {mem : σ} {s : System σ K V ι} (hr : System.Reachable S write mem s) {i : ι} (key : K)
    (idle : s.calls i = none) (k : Nat) :
    System.Reachable S write mem
      ⟨s.mem, Function.update s.calls i
        (some ⟨key, (Pc.load S s.mem key)^[k] .loadMap, s.mem, [s.mem]⟩)⟩ := by
  induction k with
  | zero => exact hr.tail (.invoke i key (by rw [idle]; exact nofun))
  | succ k ih =>
    have hstep := ih.tail (.load i (Function.update_self _ _ _))
    rw [Function.update_idem] at hstep
    rw [Function.iterate_succ_apply']
    exact hstep

/-! ## What the writer guarantees -/

/-- The writer's side of the protocol. `anchor mem map key n` says that probe index `n` of
the map holds the key for good: until the generation cell of the key changes or the key
is deleted. -/
structure Guarantee (S : Shared σ K V) (Inv : σ → Prop) (write : σ → σ → Prop)
    (anchor : σ → Nat → K → Nat → Prop) : Prop where
  inv : ∀ {s s'}, Inv s → write s s' → Inv s'
  current_le : ∀ {s s'}, Inv s → write s s' → S.current s ≤ S.current s'
  signals_le : ∀ {s s'}, Inv s → write s s' → S.signals s ≤ S.signals s'
  good : ∀ {s map key n}, Inv s → map ≤ S.current s → anchor s map key n →
    (S.view s map key).Good S.saturated n
  stored : ∀ {s key}, Inv s → (S.view s (S.current s) key).lookup S.saturated ≠ none →
    ∃ n, anchor s (S.current s) key n
  generation_lt : ∀ {s map key}, Inv s → map ≤ S.current s →
    (S.view s map key).generation < 2 ^ 32
  retired : ∀ {s s' map key}, Inv s → write s s' → map ≤ S.current s → map ≠ S.current s' →
    (S.view s' map key).generation = (S.view s map key).generation ∧
    ∀ n, anchor s map key n → anchor s' map key n
  signal : ∀ {s s' key}, Inv s → write s s' → S.current s' = S.current s →
    (S.view s' (S.current s) key).generation ≠ (S.view s (S.current s) key).generation →
    (S.view s' (S.current s) key).generation =
      ((S.view s (S.current s) key).generation + 1) % 2 ^ 32 ∧ S.signals s < S.signals s'
  keep : ∀ {s s' key n}, Inv s → write s s' → S.current s' = S.current s →
    (S.view s' (S.current s) key).generation = (S.view s (S.current s) key).generation →
    (S.view s' (S.current s) key).lookup S.saturated ≠ none →
    anchor s (S.current s) key n → anchor s' (S.current s) key n

section Present

variable {S : Shared σ K V} {Inv : σ → Prop} {write : σ → σ → Prop}
  {anchor : σ → Nat → K → Nat → Prop}

/-- The key is stored at every moment of the call so far. -/
def Call.Throughout (S : Shared σ K V) (c : Call σ K V) : Prop :=
  ∀ mem ∈ c.moments, (S.view mem (S.current mem) c.key).lookup S.saturated ≠ none

/-- The reader's generation `g` is `d` signals old, and if it is current then `P` holds of
every key stored throughout the call. -/
def Fresh (S : Shared σ K V) (mem : σ) (c : Call σ K V) (map g : Nat) (P : Prop) : Prop :=
  g < 2 ^ 32 ∧ ∃ d, S.signals c.start + d ≤ S.signals mem ∧
    (S.view mem map c.key).generation = (g + d) % 2 ^ 32 ∧
    (d = 0 → c.Throughout S → P)

/-- What a call in progress knows about the memory. -/
def Knows (S : Shared σ K V) (anchor : σ → Nat → K → Nat → Prop) (mem : σ)
    (c : Call σ K V) : Prop :=
  match c.pc with
  | .loadMap => True
  | .loadGeneration map =>
    map ≤ S.current mem ∧ (c.Throughout S → ∃ n, anchor mem map c.key n)
  | .loadBound map g | .loadMaximum map g =>
    map ≤ S.current mem ∧ Fresh S mem c map g (∃ n, anchor mem map c.key n)
  | .probe map g bound i =>
    map ≤ S.current mem ∧ Fresh S mem c map g (∃ n, anchor mem map c.key n ∧ i ≤ n ∧ n < bound)
  | .recheck map g object =>
    map ≤ S.current mem ∧ Fresh S mem c map g (object ≠ none)
  | .done object =>
    ∀ last, c.moments.head? = some last → S.signals last < S.signals c.start + 2 ^ 32 →
      c.Throughout S → object ≠ none

/-- The invariant of a call: besides what it knows, the latest moment is the present one as
long as the call runs. -/
structure CallInv (S : Shared σ K V) (anchor : σ → Nat → K → Nat → Prop) (mem : σ)
    (c : Call σ K V) : Prop where
  latest : (∀ object, c.pc ≠ .done object) → c.moments.head? = some mem
  start_le : (∀ object, c.pc ≠ .done object) → S.signals c.start ≤ S.signals mem
  knows : Knows S anchor mem c

theorem Call.key_observe (mem : σ) (c : Call σ K V) : (c.observe mem).key = c.key := by
  unfold Call.observe
  split <;> rfl

theorem Call.start_observe (mem : σ) (c : Call σ K V) : (c.observe mem).start = c.start := by
  unfold Call.observe
  split <;> rfl

theorem Call.pc_observe (mem : σ) (c : Call σ K V) : (c.observe mem).pc = c.pc := by
  unfold Call.observe
  split <;> rfl

theorem Call.moments_observe {mem : σ} {c : Call σ K V} (h : ∀ object, c.pc ≠ .done object) :
    (c.observe mem).moments = mem :: c.moments := by
  unfold Call.observe
  split
  · exact absurd ‹_› (h _)
  · rfl

theorem Call.throughout_observe {mem : σ} {c : Call σ K V}
    (h : ∀ object, c.pc ≠ .done object) :
    (c.observe mem).Throughout S ↔
      (S.view mem (S.current mem) c.key).lookup S.saturated ≠ none ∧ c.Throughout S := by
  unfold Call.Throughout
  rw [Call.moments_observe h, Call.key_observe]
  simp

/-- A write leaves the age of a reader's generation known. -/
theorem Fresh.after_write (G : Guarantee S Inv write anchor) {s s' : σ} {c : Call σ K V}
    {map g : Nat} {P P' : Prop} (hinv : Inv s) (hw : write s s')
    (hrun : ∀ object, c.pc ≠ .done object) (hmap : map ≤ S.current s)
    (hP : (S.view s' map c.key).generation = (S.view s map c.key).generation →
      (S.view s' (S.current s') c.key).lookup S.saturated ≠ none → P → P')
    (h : Fresh S s c map g P) : Fresh S s' (c.observe s') map g P' := by
  obtain ⟨hg, d, hd, hgen, hd0⟩ := h
  refine ⟨hg, ?_⟩
  have hsig := G.signals_le hinv hw
  rw [Call.key_observe, Call.start_observe, Call.throughout_observe hrun]
  by_cases hsame : (S.view s' map c.key).generation = (S.view s map c.key).generation
  · refine ⟨d, by omega, hsame.trans hgen, fun h0 ht => ?_⟩
    exact hP hsame ht.1 (hd0 h0 ht.2)
  · -- the cell changed, so the map is the current one and the reader's value is now stale
    have hcur : map = S.current s' := by
      by_contra hne
      exact hsame (G.retired hinv hw hmap hne).1
    have hcur' : S.current s' = S.current s :=
      le_antisymm (hcur ▸ hmap) (G.current_le hinv hw)
    rw [hcur.trans hcur'] at hsame hgen ⊢
    obtain ⟨hnext, hlt⟩ := G.signal hinv hw hcur' hsame
    refine ⟨d + 1, by omega, ?_, fun h0 => absurd h0 (by omega)⟩
    rw [hnext, hgen, Nat.mod_add_mod]
    congr 1

/-- An anchor of a reader's map outlives a write that does not signal. -/
theorem Guarantee.anchor_write (G : Guarantee S Inv write anchor) {s s' : σ} {key : K}
    {map n : Nat} (hinv : Inv s) (hw : write s s') (hmap : map ≤ S.current s)
    (hgen : (S.view s' map key).generation = (S.view s map key).generation)
    (hst : (S.view s' (S.current s') key).lookup S.saturated ≠ none)
    (ha : anchor s map key n) : anchor s' map key n := by
  by_cases hcur : map = S.current s'
  · have hcur' : S.current s' = S.current s :=
      le_antisymm (hcur ▸ hmap) (G.current_le hinv hw)
    have he : map = S.current s := hcur.trans hcur'
    subst he
    rw [hcur'] at hst
    exact G.keep hinv hw hcur' hgen hst ha
  · exact (G.retired hinv hw hmap hcur).2 n ha

theorem callInv_write (G : Guarantee S Inv write anchor) {s s' : σ} {c : Call σ K V}
    (hinv : Inv s) (hw : write s s') (h : CallInv S anchor s c) :
    CallInv S anchor s' (c.observe s') := by
  by_cases hdone : ∃ object, c.pc = .done object
  · obtain ⟨object, hpc⟩ := hdone
    have hobs : c.observe s' = c := by unfold Call.observe; rw [hpc]
    rw [hobs]
    refine ⟨fun hr => absurd hpc (hr object), fun hr => absurd hpc (hr object), ?_⟩
    have hk := h.knows
    unfold Knows at hk ⊢
    rw [hpc] at hk ⊢
    exact hk
  · have hrun : ∀ object, c.pc ≠ .done object := fun object hpc => hdone ⟨object, hpc⟩
    have hcl := G.current_le hinv hw
    refine ⟨fun _ => ?_, fun _ => ?_, ?_⟩
    · rw [Call.moments_observe hrun]; rfl
    · rw [Call.start_observe]
      exact le_trans (h.start_le hrun) (G.signals_le hinv hw)
    · have hk := h.knows
      unfold Knows at hk ⊢
      rw [Call.pc_observe, Call.key_observe]
      cases hpc : c.pc with
      | loadMap => trivial
      | loadGeneration map =>
        rw [hpc] at hk
        refine ⟨by omega, fun ht => ?_⟩
        obtain ⟨hst, ht'⟩ := (Call.throughout_observe hrun).mp ht
        by_cases hcur : map = S.current s'
        · rw [hcur]
          exact G.stored (G.inv hinv hw) hst
        · obtain ⟨n, hn⟩ := hk.2 ht'
          exact ⟨n, (G.retired hinv hw hk.1 hcur).2 n hn⟩
      | loadBound map g =>
        rw [hpc] at hk
        refine ⟨by omega, Fresh.after_write G hinv hw hrun hk.1 ?_ hk.2⟩
        rintro hgen hst ⟨n, hn⟩
        exact ⟨n, G.anchor_write hinv hw hk.1 hgen hst hn⟩
      | loadMaximum map g =>
        rw [hpc] at hk
        refine ⟨by omega, Fresh.after_write G hinv hw hrun hk.1 ?_ hk.2⟩
        rintro hgen hst ⟨n, hn⟩
        exact ⟨n, G.anchor_write hinv hw hk.1 hgen hst hn⟩
      | probe map g bound i =>
        rw [hpc] at hk
        refine ⟨by omega, Fresh.after_write G hinv hw hrun hk.1 ?_ hk.2⟩
        rintro hgen hst ⟨n, hn, hin, hnb⟩
        exact ⟨n, G.anchor_write hinv hw hk.1 hgen hst hn, hin, hnb⟩
      | recheck map g object =>
        rw [hpc] at hk
        exact ⟨by omega, Fresh.after_write G hinv hw hrun hk.1 (fun _ _ hP => hP) hk.2⟩
      | done object => exact absurd hpc (hrun object)

/-- The present moment is one of the call's. -/
theorem CallInv.present {mem : σ} {c : Call σ K V} (h : CallInv S anchor mem c)
    (hrun : ∀ object, c.pc ≠ .done object) (ht : c.Throughout S) :
    (S.view mem (S.current mem) c.key).lookup S.saturated ≠ none :=
  ht mem (List.mem_of_mem_head? (h.latest hrun))

theorem knows_load (G : Guarantee S Inv write anchor) {mem : σ} {c : Call σ K V}
    (hinv : Inv mem) (h : CallInv S anchor mem c) (hrun : ∀ object, c.pc ≠ .done object) :
    Knows S anchor mem { c with pc := c.pc.load S mem c.key } := by
  have hk := h.knows
  unfold Knows at hk
  cases hpc : c.pc with
  | loadMap =>
    exact ⟨le_rfl, fun ht => G.stored hinv (h.present hrun ht)⟩
  | loadGeneration map =>
    rw [hpc] at hk
    refine ⟨hk.1, G.generation_lt hinv hk.1, 0, ?_, ?_, fun _ ht => hk.2 ht⟩
    · simpa using h.start_le hrun
    · rw [Nat.add_zero, Nat.mod_eq_of_lt (G.generation_lt hinv hk.1)]
  | loadBound map g =>
    rw [hpc] at hk
    obtain ⟨hmap, hg, d, hd, hgen, hP⟩ := hk
    simp only [Pc.load]
    cases hb : (S.view mem map c.key).bound with
    | none =>
      refine ⟨hmap, hg, d, hd, hgen, fun h0 ht => ?_⟩
      obtain ⟨n, hn⟩ := hP h0 ht
      exact ⟨n, hn, Nat.zero_le n, (G.good hinv hmap hn).covers.1⟩
    | some w =>
      dsimp only
      split
      · exact ⟨hmap, hg, d, hd, hgen, hP⟩
      · rename_i hw
        refine ⟨hmap, hg, d, hd, hgen, fun h0 ht => ?_⟩
        obtain ⟨n, hn⟩ := hP h0 ht
        exact ⟨n, hn, Nat.zero_le n, (G.good hinv hmap hn).covers.2 w hb hw⟩
  | loadMaximum map g =>
    rw [hpc] at hk
    obtain ⟨hmap, hg, d, hd, hgen, hP⟩ := hk
    refine ⟨hmap, hg, d, hd, hgen, fun h0 ht => ?_⟩
    obtain ⟨n, hn⟩ := hP h0 ht
    exact ⟨n, hn, Nat.zero_le n, (G.good hinv hmap hn).covers.1⟩
  | probe map g bound i =>
    rw [hpc] at hk
    obtain ⟨hmap, hg, d, hd, hgen, hP⟩ := hk
    simp only [Pc.load]
    split
    · refine ⟨hmap, hg, d, hd, hgen, fun h0 ht => ?_⟩
      obtain ⟨n, -, hin, hnb⟩ := hP h0 ht
      omega
    · split
      · -- a vacant slot at or before the anchor contradicts the anchor
        rename_i hv
        refine ⟨hmap, hg, d, hd, hgen, fun h0 ht => ?_⟩
        obtain ⟨n, hn, hin, -⟩ := hP h0 ht
        have hgood := G.good hinv hmap hn
        rcases Nat.eq_or_lt_of_le hin with rfl | hlt
        · obtain ⟨v, hhit⟩ := hgood.hit
          rw [hv] at hhit; cases hhit
        · exact absurd hv (hgood.open_path i hlt)
      · exact ⟨hmap, hg, d, hd, hgen, fun _ _ => Option.some_ne_none _⟩
      · rename_i ho
        refine ⟨hmap, hg, d, hd, hgen, fun h0 ht => ?_⟩
        obtain ⟨n, hn, hin, hnb⟩ := hP h0 ht
        refine ⟨n, hn, ?_, hnb⟩
        obtain ⟨v, hhit⟩ := (G.good hinv hmap hn).hit
        have hne : i ≠ n := by rintro rfl; rw [ho] at hhit; cases hhit
        omega
  | recheck map g object =>
    rw [hpc] at hk
    obtain ⟨hmap, hg, d, hd, hgen, hP⟩ := hk
    simp only [Pc.load]
    split
    · rename_i hsame
      intro last hlast hsig ht
      dsimp only at hsig
      have hlatest := h.latest hrun
      have : last = mem := Option.some.inj (hlast.symm.trans hlatest)
      subst this
      -- fewer than `2 ^ 32` signals and an unchanged cell: no signal at all
      have hd0 : d = 0 := by omega
      exact hP hd0 ht
    · trivial
  | done object => exact absurd hpc (hrun object)

theorem callInv_load (G : Guarantee S Inv write anchor) {mem : σ} {c : Call σ K V}
    (hinv : Inv mem) (h : CallInv S anchor mem c) :
    CallInv S anchor mem { c with pc := c.pc.load S mem c.key } := by
  by_cases hdone : ∃ object, c.pc = .done object
  · obtain ⟨object, hpc⟩ := hdone
    have : c.pc.load S mem c.key = c.pc := by rw [hpc]; rfl
    rw [this]
    exact h
  · have hrun : ∀ object, c.pc ≠ .done object := fun object hpc => hdone ⟨object, hpc⟩
    exact ⟨fun _ => h.latest hrun, fun _ => h.start_le hrun, knows_load G hinv h hrun⟩

theorem callInv_invoke (mem : σ) (key : K) :
    CallInv S anchor mem (⟨key, .loadMap, mem, [mem]⟩ : Call σ K V) :=
  ⟨fun _ => rfl, fun _ => le_rfl, trivial⟩

/-- Every call of every reachable state satisfies the call invariant. -/
theorem reachable_callInv [DecidableEq ι] (G : Guarantee S Inv write anchor) {mem : σ}
    (hinit : Inv mem) {s : System σ K V ι} (hr : System.Reachable S write mem s) :
    Inv s.mem ∧ ∀ i c, s.calls i = some c → CallInv S anchor s.mem c := by
  induction hr with
  | refl => exact ⟨hinit, fun i c hc => by cases hc⟩
  | tail _ hstep ih =>
    obtain ⟨hinv, hcalls⟩ := ih
    cases hstep with
    | write hw =>
      refine ⟨G.inv hinv hw, fun i c hc => ?_⟩
      obtain ⟨c', hc', rfl⟩ := Option.map_eq_some_iff.mp hc
      exact callInv_write G hinv hw (hcalls i c' hc')
    | invoke i key idle =>
      refine ⟨hinv, fun j c hc => ?_⟩
      by_cases hj : j = i
      · subst hj
        simp only [Function.update_self, Option.some.injEq] at hc
        exact hc ▸ callInv_invoke _ _
      · simp only [Function.update_of_ne hj] at hc
        exact hcalls j c hc
    | load i hc =>
      refine ⟨hinv, fun j c' hc' => ?_⟩
      by_cases hj : j = i
      · subst hj
        simp only [Function.update_self, Option.some.injEq] at hc'
        exact hc' ▸ callInv_load G hinv (hcalls _ _ hc)
      · simp only [Function.update_of_ne hj] at hc'
        exact hcalls j c' hc'

/-- The invariant of the memory holds at every moment of every call, of which there is one. -/
theorem reachable_moments [DecidableEq ι] {mem : σ} {s : System σ K V ι}
    (hr : System.Reachable S write mem s) (hinit : Inv mem)
    (inv : ∀ s s', Inv s → write s s' → Inv s') :
    Inv s.mem ∧ ∀ i c, s.calls i = some c → c.moments ≠ [] ∧ ∀ m ∈ c.moments, Inv m := by
  induction hr with
  | refl => exact ⟨hinit, fun i c hc => by cases hc⟩
  | tail _ hstep ih =>
    obtain ⟨hinv, hcalls⟩ := ih
    cases hstep with
    | write hw =>
      refine ⟨inv _ _ hinv hw, fun i c hc => ?_⟩
      obtain ⟨c', hc', rfl⟩ := Option.map_eq_some_iff.mp hc
      obtain ⟨hne, hall⟩ := hcalls i c' hc'
      unfold Call.observe
      split
      · exact ⟨hne, hall⟩
      · refine ⟨List.cons_ne_nil _ _, fun m hm => ?_⟩
        rcases List.mem_cons.mp hm with rfl | hm'
        · exact inv _ _ hinv hw
        · exact hall m hm'
    | invoke i key idle =>
      refine ⟨hinv, fun j c hc => ?_⟩
      by_cases hj : j = i
      · subst hj
        simp only [Function.update_self, Option.some.injEq] at hc
        subst hc
        refine ⟨List.cons_ne_nil _ _, fun m hm => ?_⟩
        rw [List.mem_singleton.mp hm]
        exact hinv
      · simp only [Function.update_of_ne hj] at hc
        exact hcalls j c hc
    | load i hc =>
      refine ⟨hinv, fun j c' hc' => ?_⟩
      by_cases hj : j = i
      · subst hj
        simp only [Function.update_self, Option.some.injEq] at hc'
        obtain ⟨hne, hall⟩ := hcalls j _ hc
        subst hc'
        exact ⟨hne, hall⟩
      · simp only [Function.update_of_ne hj] at hc'
        exact hcalls j c' hc'

/-- A lookup of a key that is stored at every moment of the call does not miss it, if fewer
than `2 ^ 32` generation signals occur during the call. -/
theorem lookup_ne_none [DecidableEq ι] (G : Guarantee S Inv write anchor) {mem : σ}
    (hinit : Inv mem) {s : System σ K V ι} (hr : System.Reachable S write mem s) {i : ι}
    {c : Call σ K V} (hc : s.calls i = some c) {object : Option V}
    (hdone : c.pc = .done object)
    (hsig : ∀ m ∈ c.moments, S.signals m < S.signals c.start + 2 ^ 32)
    (ht : c.Throughout S) : object ≠ none := by
  have hk := ((reachable_callInv G hinit hr).2 i c hc).knows
  obtain ⟨hne, -⟩ := (reachable_moments hr hinit (fun _ _ h hw => G.inv h hw)).2 i c hc
  unfold Knows at hk
  rw [hdone] at hk
  obtain ⟨last, hlast⟩ := Option.ne_none_iff_exists'.mp (mt List.head?_eq_none_iff.mp hne)
  exact hk last hlast (hsig last (List.mem_of_mem_head? hlast)) ht

end Present

/-! ## What a lookup may return -/

/-- `v` is the object at the lowest probe index that holds the key. -/
def View.Least (vw : View V) (n : Nat) (v : V) : Prop :=
  vw.probe n = .hit v ∧ ∀ k < n, ∀ u, vw.probe k ≠ .hit u

theorem View.exists_least {vw : View V} {n : Nat} {v : V} (h : vw.probe n = .hit v) :
    ∃ j u, j ≤ n ∧ vw.Least j u := by
  classical
  have hex : ∃ j, ∃ u, vw.probe j = .hit u := ⟨n, v, h⟩
  obtain ⟨u, hu⟩ := Nat.find_spec hex
  refine ⟨Nat.find hex, u, Nat.find_min' hex ⟨v, h⟩, hu, fun k hk w hw => ?_⟩
  exact Nat.find_min hex hk ⟨w, hw⟩

theorem View.Least.unique {vw : View V} {n j : Nat} {v u : V} (h : vw.Least n v)
    (hj : vw.Least j u) : n = j ∧ v = u := by
  have hle : j ≤ n := by
    by_contra hlt
    exact hj.2 n (by omega) v h.1
  have hge : n ≤ j := by
    by_contra hlt
    exact h.2 j (by omega) u hj.1
  have he : n = j := by omega
  subst he
  refine ⟨rfl, ?_⟩
  have := h.1.symm.trans hj.1
  injection this

/-- How one write may change the places at which a key is found. -/
inductive HitChange (saturated : Nat) (vw vw' : View V) : Prop
  /-- Nothing changes for the key. -/
  | same (h : ∀ n v, vw'.probe n = .hit v ↔ vw.probe n = .hit v)
  /-- A new object for the key is stored where lookups now find it, and all places that held
  the key before held one object. -/
  | assign (u : V) (uniform : ∀ n n' v v', vw.probe n = .hit v → vw.probe n' = .hit v' → v = v')
      (found : vw'.lookup saturated = some u)
      (old : ∀ n v, vw'.probe n = .hit v → vw.probe n = .hit v ∨ v = u)
  /-- Places are given up, the lowest one last. -/
  | erase (old : ∀ n v, vw'.probe n = .hit v → vw.probe n = .hit v)
      (least : ∀ n v, vw.Least n v → vw'.probe n = .hit v ∨ ∀ n' v', vw'.probe n' ≠ .hit v')

/-- The writer's side of the protocol as far as the returned objects are concerned. -/
structure ObjectGuarantee (S : Shared σ K V) (Inv : σ → Prop) (write : σ → σ → Prop) :
    Prop where
  inv : ∀ {s s'}, Inv s → write s s' → Inv s'
  current_le : ∀ {s s'}, Inv s → write s s' → S.current s ≤ S.current s'
  least : ∀ {s key n v}, Inv s → (S.view s (S.current s) key).Least n v →
    (S.view s (S.current s) key).lookup S.saturated = some v
  retired : ∀ {s s' map} (key), Inv s → write s s' → map ≤ S.current s → map ≠ S.current s' →
    (S.view s' map key).probe = (S.view s map key).probe
  change : ∀ {s s'} (key), Inv s → write s s' → S.current s' = S.current s →
    HitChange S.saturated (S.view s (S.current s) key) (S.view s' (S.current s) key)

section Returned

variable {S : Shared σ K V} {Inv : σ → Prop} {write : σ → σ → Prop}

/-- `v` was the stored object of the key at some moment of the call. -/
def Call.Saw (S : Shared σ K V) (c : Call σ K V) (v : V) : Prop :=
  ∃ mem ∈ c.moments, (S.view mem (S.current mem) c.key).lookup S.saturated = some v

/-- Every place from probe index `i` on holds an object seen during the call, or the lowest
place is still ahead and holds one. -/
def Ahead (vw : View V) (saw : V → Prop) (i : Nat) : Prop :=
  (∀ n v, i ≤ n → vw.probe n = .hit v → saw v) ∨ ∀ n v, vw.Least n v → i ≤ n ∧ saw v

/-- What a call in progress knows about the objects it may still meet. -/
def Sight (S : Shared σ K V) (mem : σ) (c : Call σ K V) : Prop :=
  match c.pc with
  | .loadMap => True
  | .loadGeneration map | .loadBound map _ | .loadMaximum map _ =>
    map ≤ S.current mem ∧ Ahead (S.view mem map c.key) (c.Saw S) 0
  | .probe map _ _ i => map ≤ S.current mem ∧ Ahead (S.view mem map c.key) (c.Saw S) i
  | .recheck _ _ object | .done object => ∀ v, object = some v → c.Saw S v

structure SightInv (S : Shared σ K V) (mem : σ) (c : Call σ K V) : Prop where
  latest : (∀ object, c.pc ≠ .done object) → c.moments.head? = some mem
  sight : Sight S mem c

theorem Call.saw_observe {mem : σ} {c : Call σ K V} {v : V} (h : c.Saw S v) :
    (c.observe mem).Saw S v := by
  obtain ⟨m, hm, hv⟩ := h
  refine ⟨m, ?_, by rw [Call.key_observe]; exact hv⟩
  unfold Call.observe
  split
  · exact hm
  · exact List.mem_cons_of_mem _ hm

theorem Call.saw_present {mem : σ} {c : Call σ K V} {v : V}
    (hrun : ∀ object, c.pc ≠ .done object)
    (h : (S.view mem (S.current mem) c.key).lookup S.saturated = some v) :
    (c.observe mem).Saw S v := by
  refine ⟨mem, ?_, by rw [Call.key_observe]; exact h⟩
  rw [Call.moments_observe hrun]
  exact List.mem_cons_self

/-- A write keeps what a reader of any map knows about the places ahead. -/
theorem ahead_write (G : ObjectGuarantee S Inv write) {s s' : σ} {c : Call σ K V}
    {map i : Nat} (hinv : Inv s) (hw : write s s') (hrun : ∀ object, c.pc ≠ .done object)
    (hlatest : c.moments.head? = some s) (hmap : map ≤ S.current s)
    (h : Ahead (S.view s map c.key) (c.Saw S) i) :
    Ahead (S.view s' map c.key) ((c.observe s').Saw S) i := by
  by_cases hcur : map = S.current s'
  · have hcur' : S.current s' = S.current s :=
      le_antisymm (hcur ▸ hmap) (G.current_le hinv hw)
    have he : map = S.current s := hcur.trans hcur'
    subst he
    cases G.change c.key hinv hw hcur' with
    | same hs =>
      rcases h with h | h
      · exact .inl fun n v hin hv => Call.saw_observe (h n v hin ((hs n v).mp hv))
      · refine .inr fun n v hl => ?_
        have hl' : (S.view s (S.current s) c.key).Least n v :=
          ⟨(hs n v).mp hl.1, fun k hk u hu => hl.2 k hk u ((hs k u).mpr hu)⟩
        exact ⟨(h n v hl').1, Call.saw_observe (h n v hl').2⟩
    | assign u uniform found old =>
      refine .inl fun n v _ hv => ?_
      rcases old n v hv with ho | rfl
      · -- an old place: its object was the stored one just before the write
        obtain ⟨j, w, -, hj⟩ := View.exists_least ho
        rw [uniform n j v w ho hj.1]
        exact Call.saw_observe ⟨s, List.mem_of_mem_head? hlatest, G.least hinv hj⟩
      · rw [← hcur'] at found
        exact Call.saw_present hrun found
    | erase old least =>
      rcases h with h | h
      · exact .inl fun n v hin hv => Call.saw_observe (h n v hin (old n v hv))
      · refine .inr fun n v hl => ?_
        obtain ⟨j, w, -, hj⟩ := View.exists_least (old n v hl.1)
        rcases least j w hj with hs | hnone
        · have hj' : (S.view s' (S.current s) c.key).Least j w :=
            ⟨hs, fun k hk u hu => hj.2 k hk u (old k u hu)⟩
          obtain ⟨rfl, rfl⟩ := hl.unique hj'
          exact ⟨(h n v hj).1, Call.saw_observe (h n v hj).2⟩
        · exact absurd hl.1 (hnone n v)
  · have hp := G.retired c.key hinv hw hmap hcur
    unfold Ahead View.Least
    rw [hp]
    rcases h with h | h
    · exact .inl fun n v hin hv => Call.saw_observe (h n v hin hv)
    · exact .inr fun n v hl => ⟨(h n v hl).1, Call.saw_observe (h n v hl).2⟩

theorem sightInv_write (G : ObjectGuarantee S Inv write) {s s' : σ} {c : Call σ K V}
    (hinv : Inv s) (hw : write s s') (h : SightInv S s c) : SightInv S s' (c.observe s') := by
  by_cases hdone : ∃ object, c.pc = .done object
  · obtain ⟨object, hpc⟩ := hdone
    have hobs : c.observe s' = c := by unfold Call.observe; rw [hpc]
    rw [hobs]
    refine ⟨fun hr => absurd hpc (hr object), ?_⟩
    have hk := h.sight
    unfold Sight at hk ⊢
    rw [hpc] at hk ⊢
    exact hk
  · have hrun : ∀ object, c.pc ≠ .done object := fun object hpc => hdone ⟨object, hpc⟩
    have hcl := G.current_le hinv hw
    refine ⟨fun _ => by rw [Call.moments_observe hrun]; rfl, ?_⟩
    have hk := h.sight
    have hl := h.latest hrun
    unfold Sight at hk ⊢
    rw [Call.pc_observe, Call.key_observe]
    cases hpc : c.pc with
    | loadMap => trivial
    | loadGeneration map | loadBound map g | loadMaximum map g | probe map g bound i =>
      rw [hpc] at hk
      exact ⟨le_trans hk.1 hcl, ahead_write G hinv hw hrun hl hk.1 hk.2⟩
    | recheck map g object =>
      rw [hpc] at hk
      exact fun v hv => Call.saw_observe (hk v hv)
    | done object => exact absurd hpc (hrun object)

theorem sight_load (G : ObjectGuarantee S Inv write) {mem : σ} {c : Call σ K V}
    (hinv : Inv mem) (h : SightInv S mem c) (hrun : ∀ object, c.pc ≠ .done object) :
    Sight S mem { c with pc := c.pc.load S mem c.key } := by
  have hk := h.sight
  unfold Sight at hk
  cases hpc : c.pc with
  | loadMap =>
    refine ⟨le_rfl, .inr fun n v hl => ⟨Nat.zero_le n, ?_⟩⟩
    exact ⟨mem, List.mem_of_mem_head? (h.latest hrun), G.least hinv hl⟩
  | loadGeneration map => rw [hpc] at hk; exact hk
  | loadBound map g =>
    rw [hpc] at hk
    simp only [Pc.load]
    cases (S.view mem map c.key).bound with
    | none => exact hk
    | some w => dsimp only; split <;> exact hk
  | loadMaximum map g => rw [hpc] at hk; exact hk
  | probe map g bound i =>
    rw [hpc] at hk
    obtain ⟨hmap, ha⟩ := hk
    simp only [Pc.load]
    split
    · intro v hv; cases hv
    · split
      · intro v hv; cases hv
      · rename_i w hw
        intro v hv
        cases hv
        rcases ha with ha | ha
        · exact ha i w le_rfl hw
        · obtain ⟨j, u, hji, hj⟩ := View.exists_least hw
          obtain ⟨hij, hu⟩ := ha j u hj
          have he : i = j := by omega
          subst he
          have := hj.1.symm.trans hw
          injection this with this
          exact this ▸ hu
      · rename_i ho
        refine ⟨hmap, ?_⟩
        rcases ha with ha | ha
        · exact .inl fun n v hin hv => ha n v (by omega) hv
        · refine .inr fun n v hl => ⟨?_, (ha n v hl).2⟩
          have hne : i ≠ n := by
            rintro rfl
            have := ho.symm.trans hl.1
            injection this
          have := (ha n v hl).1
          omega
  | recheck map g object =>
    rw [hpc] at hk
    simp only [Pc.load]
    split
    · exact hk
    · trivial
  | done object => exact absurd hpc (hrun object)

theorem reachable_sightInv [DecidableEq ι] (G : ObjectGuarantee S Inv write) {mem : σ}
    (hinit : Inv mem) {s : System σ K V ι} (hr : System.Reachable S write mem s) :
    Inv s.mem ∧ ∀ i c, s.calls i = some c → SightInv S s.mem c := by
  induction hr with
  | refl => exact ⟨hinit, fun i c hc => by cases hc⟩
  | tail _ hstep ih =>
    obtain ⟨hinv, hcalls⟩ := ih
    cases hstep with
    | write hw =>
      refine ⟨G.inv hinv hw, fun i c hc => ?_⟩
      obtain ⟨c', hc', rfl⟩ := Option.map_eq_some_iff.mp hc
      exact sightInv_write G hinv hw (hcalls i c' hc')
    | invoke i key idle =>
      refine ⟨hinv, fun j c hc => ?_⟩
      by_cases hj : j = i
      · subst hj
        simp only [Function.update_self, Option.some.injEq] at hc
        exact hc ▸ ⟨fun _ => rfl, trivial⟩
      · simp only [Function.update_of_ne hj] at hc
        exact hcalls j c hc
    | load i hc =>
      rename_i c
      refine ⟨hinv, fun j c' hc' => ?_⟩
      by_cases hj : j = i
      · subst hj
        simp only [Function.update_self, Option.some.injEq] at hc'
        have hs := hcalls _ _ hc
        subst hc'
        by_cases hdone : ∃ object, c.pc = .done object
        · obtain ⟨object, hpc⟩ := hdone
          rw [show c.pc.load S _ c.key = c.pc by rw [hpc]; rfl]
          exact hs
        · have hrun : ∀ object, c.pc ≠ .done object := fun object hpc => hdone ⟨object, hpc⟩
          exact ⟨fun _ => hs.latest hrun, sight_load G hinv hs hrun⟩
      · simp only [Function.update_of_ne hj] at hc'
        exact hcalls j c' hc'

/-- An object that a lookup returns was the stored object of the key at some moment of the
call. -/
theorem lookup_stored [DecidableEq ι] (G : ObjectGuarantee S Inv write) {mem : σ}
    (hinit : Inv mem) {s : System σ K V ι} (hr : System.Reachable S write mem s) {i : ι}
    {c : Call σ K V} (hc : s.calls i = some c) {v : V} (hdone : c.pc = .done (some v)) :
    c.Saw S v := by
  have hk := ((reachable_sightInv G hinit hr).2 i c hc).sight
  unfold Sight at hk
  rw [hdone] at hk
  exact hk v rfl

end Returned

end ConcurrencyKit.Lookup
