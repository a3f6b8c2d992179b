import ConcurrencyKit.Misc.Chain
import ConcurrencyKit.Misc.Search

/-!
# The scan of `ck_hp_reclaim`

`ck_hp_reclaim` from `src/ck_hp.c` goes through the pending list of a record, and unlinks and
destroys each entry whose pointer is in no hazard slot. It looks for the pointer in a cache of the
hazards, which it has sorted, and where not all of them have fit into the cache, in the slots of the
records from the one on at which the cache was full.

A pointer is an address, and zero is the null pointer.
-/

namespace ConcurrencyKit.Hp

open Chain (Cells Linked endFrom)
open Chain.Loc (head next)

/-- `CK_HP_USED` and `CK_HP_FREE`. -/
inductive State where
  | used
  | free
  deriving DecidableEq, Repr

/-- The part of `struct ck_hp_record` that the other threads look at. -/
structure Record where
  state : State
  pointers : Option (Nat → Nat)

/-- `struct ck_hp`, with the records of the list of subscribers. -/
structure Global where
  subscribers : List Record
  degree : Nat

/-- `pointer` and `data` of `struct ck_hp_hazard`. -/
structure Hazard where
  pointer : Nat
  data : Nat

/-- The part of the calling record that `ck_hp_reclaim` changes, with the memory of its pending
entries, and the calls of the destructor. -/
structure Thread (α : Type) where
  /-- The first entry of `pending`, and `pending_entry.next` of the entries. -/
  cell : Cells Unit α
  hazard : α → Hazard
  nPending : BitVec 32
  nReclamations : BitVec 64
  destroyed : List Nat

/-- `hazard_compare` (`ck_hp.c:153-162`). -/
def hazardCompare (x y : Nat) : Int := (if x > y then 1 else 0) - if x < y then 1 else 0

/-- The loop over the slots in `ck_hp_member_scan`. -/
def scanSlots (pointers : Nat → Nat) (pointer : Nat) : Nat → Nat → Bool
  | _, 0 => false
  | i, k + 1 => if pointers i = pointer then true else scanSlots pointers pointer (i + 1) k

/-- `ck_hp_member_scan` (`ck_hp.c:164-187`). -/
def memberScan (degree pointer : Nat) : List Record → Bool
  | [] => false
  | record :: rest =>
    if record.state = .free then memberScan degree pointer rest
    else
      match record.pointers with
      | none => memberScan degree pointer rest
      | some pointers =>
        if scanSlots pointers pointer 0 degree then true else memberScan degree pointer rest

/-- The loop over the slots in `ck_hp_member_cache`. It tells whether the limit has been hit. -/
def cacheSlots (limit : Nat) (pointers : Nat → Nat) : Nat → Nat → List Nat → List Nat × Bool
  | _, 0, cache => (cache, false)
  | i, k + 1, cache =>
    if cache.length ≥ limit then (cache, true)
    else
      cacheSlots limit pointers (i + 1) k
        (if pointers i ≠ 0 then cache ++ [pointers i] else cache)

/-- `ck_hp_member_cache` with the limit `CK_HP_CACHE` (`ck_hp.c:189-227`). The cursor that it
returns is given by the records from there on. -/
def memberCache (limit degree : Nat) : List Record → List Nat → List Nat × List Record
  | [], cache => (cache, [])
  | record :: rest, cache =>
    if record.state = .free then memberCache limit degree rest cache
    else
      match record.pointers with
      | none => memberCache limit degree rest cache
      | some pointers =>
        match cacheSlots limit pointers 0 degree cache with
        | (cache, true) => (cache, record :: rest)
        | (cache, false) => memberCache limit degree rest cache

section Walk

variable {α : Type} [DecidableEq α]

/-- The entry is unlinked and destroyed. -/
def destroy (previous : Option α) (entry : α) (t : Thread α) : Thread α :=
  { t with
    nPending := t.nPending - 1
    cell := Function.update t.cell (previous.elim (head ()) next) (t.cell (next entry))
    destroyed := t.destroyed ++ [(t.hazard entry).data]
    nReclamations := t.nReclamations + 1 }

/-- The loop of `ck_hp_reclaim` over the pending list. -/
def sweep (degree : Nat) (cache : List Nat) (marker : List Record) :
    Nat → Option α → Option α → Thread α → Option (Thread α)
  | _, _, none, t => some t
  | 0, _, some _, _ => none
  | fuel + 1, previous, some entry, t =>
    if (Search.bsearch hazardCompare (t.hazard entry).pointer cache).isSome then
      sweep degree cache marker fuel (some entry) (t.cell (next entry)) t
    else if marker ≠ [] ∧ memberScan degree (t.hazard entry).pointer marker = true then
      sweep degree cache marker fuel (some entry) (t.cell (next entry)) t
    else
      sweep degree cache marker fuel previous (t.cell (next entry)) (destroy previous entry t)

/-- `ck_hp_reclaim` (`ck_hp.c:229-291`). -/
def reclaim (limit : Nat) (g : Global) (fuel : Nat) (t : Thread α) : Option (Thread α) :=
  match memberCache limit g.degree g.subscribers [] with
  | (cache, marker) =>
    sweep g.degree (Search.qsort hazardCompare cache) marker fuel none (t.cell (head ())) t

end Walk

/-- The pointer is in a slot of the record, which is in use. -/
def Record.Protects (degree pointer : Nat) (record : Record) : Prop :=
  record.state ≠ .free ∧ ∃ i < degree, record.pointers.map (· i) = some pointer

instance (degree pointer : Nat) (record : Record) : Decidable (record.Protects degree pointer) :=
  inferInstanceAs (Decidable (_ ∧ _))

/-- The pointer is in a slot of a record that is in use. -/
def Hazardous (degree pointer : Nat) (records : List Record) : Prop :=
  ∃ record ∈ records, record.Protects degree pointer

instance (degree pointer : Nat) (records : List Record) :
    Decidable (Hazardous degree pointer records) :=
  inferInstanceAs (Decidable (∃ record ∈ records, _))

/-! ## Where the hazards are -/

section Hazards

variable {limit degree pointer i k : Nat} {record : Record} {records marker : List Record}
  {cache cache' : List Nat} {pointers : Nat → Nat} {hit : Bool}

theorem hazardous_cons : Hazardous degree pointer (record :: records) ↔
    record.Protects degree pointer ∨ Hazardous degree pointer records :=
  List.exists_mem_cons_iff ..

theorem not_hazardous_nil : ¬ Hazardous degree pointer [] := by
  rintro ⟨record, h, -⟩
  cases h

theorem not_protects_of_free (h : record.state = .free) : ¬ record.Protects degree pointer :=
  fun hp => hp.1 h

theorem not_protects_of_none (h : record.pointers = none) : ¬ record.Protects degree pointer := by
  rintro ⟨-, i, -, hi⟩
  rw [h] at hi
  cases hi

theorem protects_iff (hused : record.state ≠ .free) (h : record.pointers = some pointers) :
    record.Protects degree pointer ↔ ∃ i < degree, pointers i = pointer := by
  unfold Record.Protects
  rw [h, and_iff_right hused]
  simp only [Option.map_some, Option.some.injEq]

theorem scanSlots_iff : scanSlots pointers pointer i k = true ↔
    ∃ j, i ≤ j ∧ j < i + k ∧ pointers j = pointer := by
  induction k generalizing i with
  | zero => exact iff_of_false Bool.false_ne_true (by rintro ⟨j, hle, hlt, -⟩; omega)
  | succ k ih =>
    unfold scanSlots
    split
    case isTrue heq => exact iff_of_true rfl ⟨i, le_rfl, by omega, heq⟩
    case isFalse hne =>
      rw [ih]
      constructor
      · rintro ⟨j, hle, hlt, hj⟩
        exact ⟨j, by omega, by omega, hj⟩
      · rintro ⟨j, hle, hlt, hj⟩
        have hne' : j ≠ i := by
          rintro rfl
          exact hne hj
        exact ⟨j, by omega, by omega, hj⟩

theorem memberScan_iff : memberScan degree pointer records = true ↔
    Hazardous degree pointer records := by
  induction records with
  | nil => exact iff_of_false Bool.false_ne_true not_hazardous_nil
  | cons record records ih =>
    rw [hazardous_cons, memberScan]
    split
    case isTrue hfree => rw [ih, or_iff_right (not_protects_of_free hfree)]
    case isFalse hused =>
      split
      case h_1 hnone => rw [ih, or_iff_right (not_protects_of_none hnone)]
      case h_2 pointers hsome =>
        have hscan : scanSlots pointers pointer 0 degree = true ↔
            ∃ j, 0 ≤ j ∧ j < 0 + degree ∧ pointers j = pointer := scanSlots_iff
        rw [protects_iff hused hsome]
        split
        case isTrue h =>
          obtain ⟨j, -, hlt, hj⟩ := hscan.mp h
          exact iff_of_true rfl (.inl ⟨j, by omega, hj⟩)
        case isFalse h =>
          rw [ih, or_iff_right]
          rintro ⟨j, hlt, hj⟩
          exact h (hscan.mpr ⟨j, Nat.zero_le j, by omega, hj⟩)

/-- The slots that have been looked at are in the cache, and nothing else has come in. -/
theorem cacheSlots_spec (hp : pointer ≠ 0)
    (h : cacheSlots limit pointers i k cache = (cache', hit)) :
    (pointer ∈ cache' → pointer ∈ cache ∨ ∃ j, i ≤ j ∧ j < i + k ∧ pointers j = pointer) ∧
      (pointer ∈ cache → pointer ∈ cache') ∧
      (hit = false → (∃ j, i ≤ j ∧ j < i + k ∧ pointers j = pointer) → pointer ∈ cache') := by
  induction k generalizing i cache with
  | zero =>
    obtain ⟨rfl, rfl⟩ := Prod.mk.inj h
    refine ⟨.inl, id, ?_⟩
    rintro - ⟨j, hle, hlt, -⟩
    omega
  | succ k ih =>
    unfold cacheSlots at h
    split at h
    case isTrue hfull =>
      obtain ⟨rfl, rfl⟩ := Prod.mk.inj h
      exact ⟨.inl, id, fun hfalse => by cases hfalse⟩
    case isFalse =>
      obtain ⟨hnew, hold, hall⟩ := ih h
      have hmem : pointer ∈ (if pointers i ≠ 0 then cache ++ [pointers i] else cache) ↔
          pointer ∈ cache ∨ pointers i = pointer := by
        split
        case isTrue => simp [eq_comm]
        case isFalse hzero =>
          refine (or_iff_left fun heq => hzero ?_).symm
          rw [heq]
          exact hp
      refine ⟨fun h => ?_, fun h => hold (hmem.mpr (.inl h)), ?_⟩
      · rcases hnew h with h | ⟨j, hle, hlt, hj⟩
        · exact (hmem.mp h).imp_right fun heq => ⟨i, le_rfl, by omega, heq⟩
        · exact .inr ⟨j, by omega, by omega, hj⟩
      · rintro hhit ⟨j, hle, hlt, hj⟩
        by_cases heq : j = i
        · exact hold (hmem.mpr (.inr (heq ▸ hj)))
        · exact hall hhit ⟨j, by omega, by omega, hj⟩

/-- A pointer is in the cache or in a slot of the records from the cursor on, exactly if it is in a
slot. -/
theorem memberCache_spec (hp : pointer ≠ 0)
    (h : memberCache limit degree records cache = (cache', marker)) :
    pointer ∈ cache' ∨ Hazardous degree pointer marker ↔
      pointer ∈ cache ∨ Hazardous degree pointer records := by
  induction records generalizing cache with
  | nil =>
    obtain ⟨rfl, rfl⟩ := Prod.mk.inj h
    rfl
  | cons record records ih =>
    rw [hazardous_cons]
    unfold memberCache at h
    split at h
    case isTrue hfree => rw [ih h, or_iff_right (not_protects_of_free hfree)]
    case isFalse hused =>
      split at h
      case h_1 hnone => rw [ih h, or_iff_right (not_protects_of_none hnone)]
      case h_2 pointers hsome =>
        have hprotects : record.Protects degree pointer ↔ ∃ i < degree, pointers i = pointer :=
          protects_iff hused hsome
        split at h
        case h_1 cache₁ hslots =>
          obtain ⟨rfl, rfl⟩ := Prod.mk.inj h
          obtain ⟨hnew, hold, -⟩ := cacheSlots_spec hp hslots
          rw [hazardous_cons]
          constructor
          · rintro (h | h)
            · rcases hnew h with h | ⟨j, -, hlt, hj⟩
              · exact .inl h
              · exact .inr (.inl (hprotects.mpr ⟨j, by omega, hj⟩))
            · exact .inr h
          · rintro (h | h)
            · exact .inl (hold h)
            · exact .inr h
        case h_2 cache₁ hslots =>
          obtain ⟨hnew, hold, hall⟩ := cacheSlots_spec hp hslots
          have hcache : pointer ∈ cache₁ ↔
              pointer ∈ cache ∨ record.Protects degree pointer := by
            rw [hprotects]
            constructor
            · intro h
              rcases hnew h with h | ⟨j, -, hlt, hj⟩
              · exact .inl h
              · exact .inr ⟨j, by omega, hj⟩
            · rintro (h | ⟨j, hlt, hj⟩)
              · exact hold h
              · exact hall rfl ⟨j, Nat.zero_le j, by omega, hj⟩
          rw [ih h, hcache, or_assoc]

/-! ## Membership -/

theorem hazardCompare_le_iff (x y : Nat) : hazardCompare x y ≤ 0 ↔ x ≤ y := by
  unfold hazardCompare
  split <;> split <;> omega

theorem hazardCompare_lt_iff (x y : Nat) : hazardCompare x y < 0 ↔ x < y := by
  unfold hazardCompare
  split <;> split <;> omega

theorem hazardCompare_eq_iff (x y : Nat) : hazardCompare x y = 0 ↔ x = y := by
  unfold hazardCompare
  split <;> split <;> omega

theorem hazardCompare_order : Search.Order hazardCompare where
  total a b := by
    rw [hazardCompare_le_iff, hazardCompare_le_iff]
    exact Nat.le_total a b
  trans a b c := by
    rw [hazardCompare_le_iff, hazardCompare_le_iff, hazardCompare_le_iff]
    exact Nat.le_trans
  lt_trans a b c := by
    rw [hazardCompare_lt_iff, hazardCompare_le_iff, hazardCompare_lt_iff]
    exact Nat.lt_of_lt_of_le
  gt_trans a b c := by
    rw [hazardCompare_le_iff, ← not_le, hazardCompare_le_iff, ← not_le, hazardCompare_le_iff]
    omega

/-- The search in the cache and the scan of the records that have not fit into it find the
hazards. -/
theorem member_iff (hp : pointer ≠ 0)
    (h : memberCache limit degree records [] = (cache, marker)) :
    ((Search.bsearch hazardCompare pointer (Search.qsort hazardCompare cache)).isSome = true ∨
      marker ≠ [] ∧ memberScan degree pointer marker = true) ↔
      Hazardous degree pointer records := by
  have hsearch : (∃ y ∈ cache, hazardCompare pointer y = 0) ↔ pointer ∈ cache := by
    simp only [hazardCompare_eq_iff, exists_eq_right']
  have hmarker : (marker ≠ [] ∧ Hazardous degree pointer marker) ↔
      Hazardous degree pointer marker := by
    refine and_iff_right_of_imp ?_
    rintro h rfl
    exact not_hazardous_nil h
  rw [Search.bsearch_qsort hazardCompare_order, hsearch, memberScan_iff, hmarker,
    memberCache_spec hp h, or_iff_right List.not_mem_nil]

end Hazards

/-! ## The walk over the pending list -/

section Sweep

variable {α : Type} {keep : α → Prop} [DecidablePred keep] {l l₁ l₂ : List α} {t t' : Thread α}

/-- The entries that are destroyed. -/
def lost (keep : α → Prop) [DecidablePred keep] (l : List α) : List α :=
  l.filter fun a => ¬ keep a

/-- What `ck_hp_reclaim` makes of a record with the pending list `l`: the entries that are kept
stay in their order, and the data of each other one goes to the destructor once. -/
structure Swept (keep : α → Prop) [DecidablePred keep] (l : List α) (t t' : Thread α) : Prop where
  pending : Linked t'.cell (head ()) (l.filter fun a => keep a)
  destroyed : t'.destroyed = t.destroyed ++ (lost keep l).map fun a => (t.hazard a).data
  nPending : t'.nPending = t.nPending - BitVec.ofNat 32 (lost keep l).length
  nReclamations : t'.nReclamations = t.nReclamations + BitVec.ofNat 64 (lost keep l).length
  hazard : t'.hazard = t.hazard

theorem sub_one_sub (n : BitVec 32) (k : Nat) :
    n - 1 - BitVec.ofNat 32 k = n - BitVec.ofNat 32 (k + 1) := by
  bv_omega

theorem add_one_add (n : BitVec 64) (k : Nat) :
    n + 1 + BitVec.ofNat 64 k = n + BitVec.ofNat 64 (k + 1) := by
  bv_omega

theorem lost_cons_of_pos {a : α} (h : keep a) : lost keep (a :: l) = lost keep l :=
  List.filter_cons_of_neg (by simpa using h)

theorem lost_cons_of_neg {a : α} (h : ¬ keep a) : lost keep (a :: l) = a :: lost keep l :=
  List.filter_cons_of_pos (by simpa using h)

theorem endFrom_getLast (l : List α) :
    endFrom (head ()) l = l.getLast?.elim (head ()) next := by
  rcases l.eq_nil_or_concat with rfl | ⟨l, a, rfl⟩
  · rfl
  · rw [List.concat_eq_append, Chain.endFrom_concat, List.getLast?_concat]
    rfl

variable [DecidableEq α] {degree fuel : Nat} {cache : List Nat} {marker : List Record}

/-- The loop between two entries: those that have been kept are linked, the last one of them is the
previous one, and the rest of the list follows. -/
theorem sweep_spec
    (hkeep : ∀ a ∈ l₂, ((Search.bsearch hazardCompare (t.hazard a).pointer cache).isSome = true ∨
      marker ≠ [] ∧ memberScan degree (t.hazard a).pointer marker = true) ↔ keep a)
    (hlinked : Linked t.cell (head ()) (l₁ ++ l₂)) (hfuel : l₂.length ≤ fuel) :
    ∃ t', sweep degree cache marker fuel l₁.getLast? l₂.head? t = some t' ∧
      Linked t'.cell (head ()) (l₁ ++ l₂.filter fun a => keep a) ∧
      t'.destroyed = t.destroyed ++ (lost keep l₂).map (fun a => (t.hazard a).data) ∧
      t'.nPending = t.nPending - BitVec.ofNat 32 (lost keep l₂).length ∧
      t'.nReclamations = t.nReclamations + BitVec.ofNat 64 (lost keep l₂).length ∧
      t'.hazard = t.hazard := by
  induction l₂ generalizing l₁ t fuel with
  | nil =>
    refine ⟨t, ?_, hlinked, ?_, ?_, ?_, rfl⟩
    · cases fuel <;> rfl
    · simp [lost]
    · simp [lost]
    · simp [lost]
  | cons a l₂ ih =>
    obtain ⟨fuel, rfl⟩ : ∃ n, fuel = n + 1 := ⟨fuel - 1, by simp at hfuel; omega⟩
    have hfuel : l₂.length ≤ fuel := by simpa using hfuel
    have hrest : Linked t.cell (next a) l₂ := (Chain.linked_append.mp hlinked).2.2
    have hnext : t.cell (next a) = l₂.head? := by
      cases l₂ with
      | nil => exact hrest
      | cons b l => exact hrest.1
    have hmember := hkeep a List.mem_cons_self
    have hsub : ∀ b ∈ l₂, b ∈ a :: l₂ := fun b hb => List.mem_cons_of_mem a hb
    rw [List.head?_cons]
    by_cases hk : keep a
    · -- the entry stays, and becomes the previous one
      have hstep : sweep degree cache marker (fuel + 1) l₁.getLast? (some a) t =
          sweep degree cache marker fuel (l₁ ++ [a]).getLast? l₂.head? t := by
        rw [List.getLast?_concat, ← hnext]
        rcases hmember.mpr hk with hfound | hfound
        · rw [sweep, if_pos hfound]
        · rw [sweep, if_pos hfound, ite_self]
      rw [hstep, List.filter_cons_of_pos (by simpa using hk), lost_cons_of_pos hk,
        List.append_cons l₁ a (l₂.filter _)]
      exact ih (fun b hb => hkeep b (hsub b hb)) (by rwa [← List.append_cons]) hfuel
    · -- the entry before it, or the head, is linked to the next one
      have hnot := not_or.mp (mt hmember.mp hk)
      have hstep : sweep degree cache marker (fuel + 1) l₁.getLast? (some a) t =
          sweep degree cache marker fuel l₁.getLast? l₂.head? (destroy l₁.getLast? a t) := by
        rw [sweep, if_neg hnot.1, if_neg hnot.2, hnext]
      have hunlinked : Linked (destroy l₁.getLast? a t).cell (head ()) (l₁ ++ l₂) := by
        unfold destroy
        dsimp only
        rw [← endFrom_getLast]
        exact hlinked.unlink (Chain.outside_head () _) hlinked.nodup
      obtain ⟨t', hrun, hpending, hdestroyed, hcount, htotal, hhazard⟩ :=
        ih (t := destroy l₁.getLast? a t) (fun b hb => hkeep b (hsub b hb)) hunlinked hfuel
      rw [hstep, List.filter_cons_of_neg (by simpa using hk), lost_cons_of_neg hk]
      refine ⟨t', hrun, hpending, ?_, ?_, ?_, hhazard⟩
      · rw [hdestroyed]
        simp [destroy]
      · rw [hcount, List.length_cons]
        exact sub_one_sub _ _
      · rw [htotal, List.length_cons]
        exact add_one_add _ _

/-- `ck_hp_reclaim` destroys exactly the entries of the pending list whose pointers are in no slot
of a record in use. -/
theorem reclaim_swept (limit : Nat) (g : Global) {l : List α} {t : Thread α}
    (hpending : Linked t.cell (head ()) l) (hpointer : ∀ a ∈ l, (t.hazard a).pointer ≠ 0)
    {fuel : Nat} (hfuel : l.length ≤ fuel) :
    ∃ t', reclaim limit g fuel t = some t' ∧
      Swept (fun a => Hazardous g.degree (t.hazard a).pointer g.subscribers) l t t' := by
  obtain ⟨cache, marker, hcache⟩ : ∃ cache marker,
      memberCache limit g.degree g.subscribers [] = (cache, marker) := ⟨_, _, rfl⟩
  have hhead : t.cell (head ()) = l.head? := by
    cases l with
    | nil => exact hpending
    | cons a l => exact hpending.1
  have hlinked : Linked t.cell (head ()) ([] ++ l) := hpending
  obtain ⟨t', hrun, hrest⟩ := sweep_spec (fun a ha => member_iff (hpointer a ha) hcache) hlinked
    hfuel
  refine ⟨t', ?_, hrest.1, hrest.2.1, hrest.2.2.1, hrest.2.2.2.1, hrest.2.2.2.2⟩
  rw [reclaim, hcache, hhead]
  exact hrun

end Sweep

/-- A record with two hazards, and a cache for one of them. -/
def twoHazards : Global where
  subscribers := [⟨.free, some fun _ => 6⟩, ⟨.used, none⟩, ⟨.used, some fun i => 5 + 2 * i⟩]
  degree := 2

/-- Three pending entries. -/
def threePending : Thread Nat where
  cell
    | .head _ => some 0
    | .next 0 => some 1
    | .next 1 => some 2
    | .next _ => none
  hazard a := ⟨7 - a, 17 - a⟩
  nPending := 3
  nReclamations := 0
  destroyed := []

/-- The entry in the middle is destroyed. -/
theorem reclaim_swept_middle : ∃ t', reclaim 1 twoHazards 3 threePending = some t' ∧
    t'.destroyed = [16] ∧ t'.nPending = 2 ∧ Linked t'.cell (head ()) [0, 2] := by
  have hpending : Linked threePending.cell (head ()) [0, 1, 2] := ⟨rfl, rfl, rfl, rfl⟩
  have hfuel : [0, 1, 2].length ≤ 3 := le_rfl
  obtain ⟨t', hrun, h⟩ := reclaim_swept 1 twoHazards hpending (by decide) hfuel
  exact ⟨t', hrun, h.destroyed.trans (by decide), h.nPending.trans (by decide), h.pending⟩

end ConcurrencyKit.Hp
