import ConcurrencyKit.Hs.Operations
import ConcurrencyKit.Misc.Lookup

/-!
# What a probe finds

`ck_hs_map_probe` walks the probe sequence of a hash value. `Probed` says what each of its
four outcomes means for the slots it walked over, for all three behaviours at once; the
operations use nothing else about the loop. With the bound of the key as its limit the
walk is the lookup of the reader's view of the map (`probe_object_eq_lookup`).
-/

namespace ConcurrencyKit.Hs

open Lookup (View Probe)

variable {V : Type} [DecidableEq V]

namespace Map

section Outcome

variable (cfg : Config V) (m : Map V) (h : BitVec 64) (key : V)

/-- The word at probe index `n`. -/
def word (n : Nat) : Slot V := m.entries (cfg.cursor m.capacity h n)

/-- The first `n` probes meet neither an empty slot nor the key. -/
def Clear (n : Nat) : Prop :=
  ∀ k < n, m.word cfg h k ≠ .empty ∧ cfg.hit h key (m.word cfg h k) = false

/-- The out parameters `*priority` and `*n_probes` of a probe that ended at index `n`: a
tombstone passed on the way if there was one, with its probe count. -/
def First (n : Nat) (priority : Option Nat) (nProbes : Nat) : Prop :=
  (priority = none ∧ nProbes = n + 1) ∨
    ∃ p < n, m.word cfg h p = .tombstone ∧ priority = some (cfg.cursor m.capacity h p) ∧
      nProbes = p + 1

/-- The outcomes of `ck_hs_map_probe` with the probe bound `bound` and the limit `opl`. -/
inductive Probed (bound opl : Nat) (behavior : ProbeBehavior) : ProbeResult V → Prop
  | found {n tag : Nat} {val : V} {priority : Option Nat} {nProbes : Nat} (lt : n < opl)
      (path : m.Clear cfg h key n) (at_cursor : m.word cfg h n = .entry tag val)
      (hit : cfg.hit h key (.entry tag val) = true) (first : m.First cfg h n priority nProbes) :
      Probed bound opl behavior
        ⟨some (cfg.cursor m.capacity h n), some val, priority, nProbes⟩
  | vacant {n : Nat} {priority : Option Nat} {nProbes : Nat} (lt : n < opl)
      (path : m.Clear cfg h key n) (at_cursor : m.word cfg h n = .empty)
      (first : m.First cfg h n priority nProbes) :
      Probed bound opl behavior ⟨some (cfg.cursor m.capacity h n), none, priority, nProbes⟩
  | tombstone {p : Nat} (lt : p < opl) (path : m.Clear cfg h key p)
      (at_priority : m.word cfg h p = .tombstone)
      (absent : behavior = .tombstone ∨ m.Clear cfg h key bound) :
      Probed bound opl behavior
        ⟨none, none, some (cfg.cursor m.capacity h p), p + 1⟩
  | full {nProbes : Nat} (absent : m.Clear cfg h key bound) :
      Probed bound opl behavior ⟨none, none, none, nProbes⟩

variable {cfg m h key}

theorem Clear.succ {n : Nat} (hc : m.Clear cfg h key n) (he : m.word cfg h n ≠ .empty)
    (hh : cfg.hit h key (m.word cfg h n) = false) : m.Clear cfg h key (n + 1) := by
  intro k hk
  rcases Nat.lt_succ_iff_lt_or_eq.mp hk with hlt | rfl
  · exact hc k hlt
  · exact ⟨he, hh⟩

theorem Clear.mono {n k : Nat} (hc : m.Clear cfg h key n) (hk : k ≤ n) :
    m.Clear cfg h key k :=
  fun j hj => hc j (by omega)

/-- What the loop has noted in `pr` after `n` probes. -/
def Noted (cfg : Config V) (m : Map V) (h : BitVec 64) (n : Nat) (pr : Option (Nat × Nat)) :
    Prop :=
  ∀ c q, pr = some (c, q) →
    ∃ p < n, m.word cfg h p = .tombstone ∧ c = cfg.cursor m.capacity h p ∧ q = p + 1

omit [DecidableEq V] in
theorem Noted.mono {n k : Nat} {pr : Option (Nat × Nat)} (hpr : Noted cfg m h n pr)
    (hk : n ≤ k) : Noted cfg m h k pr := by
  intro c q hcq
  obtain ⟨p, hp, rest⟩ := hpr c q hcq
  exact ⟨p, by omega, rest⟩

omit [DecidableEq V] in
theorem Noted.first {n : Nat} {pr : Option (Nat × Nat)} (hpr : Noted cfg m h n pr) :
    m.First cfg h n (pr.map Prod.fst) ((pr.map Prod.snd).getD (n + 1)) := by
  cases pr with
  | none => exact .inl ⟨rfl, rfl⟩
  | some cq =>
    obtain ⟨p, hp, ht, hc, hq⟩ := hpr cq.1 cq.2 rfl
    exact .inr ⟨p, hp, ht, congrArg some hc, hq⟩

end Outcome

/-- The loop invariant of the probe: the bound is in force until the walk passes it, and it
is passed only while no tombstone has been seen. -/
structure Walking (cfg : Config V) (m : Map V) (h : BitVec 64) (key : V) (bound opl : Nat)
    (behavior : ProbeBehavior) (probes limit : Nat) (pastBound : Bool)
    (pr : Option (Nat × Nat)) : Prop where
  path : m.Clear cfg h key probes
  le : probes ≤ limit
  bound_le : bound ≤ opl
  before : pastBound = false → limit = bound
  past : pastBound = true → limit = opl ∧ bound ≤ probes ∧ pr = none
  noted : Noted cfg m h probes pr
  unique : behavior = .tombstone → pr = none

theorem Walking.absent {cfg : Config V} {m : Map V} {h : BitVec 64} {key : V}
    {bound opl : Nat} {behavior : ProbeBehavior} {probes limit : Nat} {pastBound : Bool}
    {pr : Option (Nat × Nat)}
    (hw : Walking cfg m h key bound opl behavior probes limit pastBound pr)
    (hp : probes = limit) : m.Clear cfg h key bound := by
  cases hpb : pastBound with
  | false => exact hw.path.mono (by rw [hp, hw.before hpb])
  | true => exact hw.path.mono (hw.past hpb).2.1

theorem probeLoop_probed {cfg : Config V} {m : Map V} {h : BitVec 64} {key : V}
    {bound opl : Nat} {behavior : ProbeBehavior} {fuel probes limit : Nat} {pastBound : Bool}
    {pr : Option (Nat × Nat)}
    (hw : Walking cfg m h key bound opl behavior probes limit pastBound pr)
    (hfuel : opl < probes + fuel) :
    Probed cfg m h key bound opl behavior
      (probeLoop cfg m h key opl behavior fuel probes limit pastBound pr) := by
  have hlim : limit ≤ opl := by
    cases hpb : pastBound with
    | false => rw [hw.before hpb]; exact hw.bound_le
    | true => rw [(hw.past hpb).1]
  induction fuel generalizing probes limit pastBound pr with
  | zero => exact absurd hw.le (by omega)
  | succ fuel ih =>
    rw [probeLoop]
    split
    · -- the walk ends at its limit
      rename_i hend
      obtain ⟨hp, hdone⟩ := hend
      simp only [probeLeave, if_pos (by omega : limit < probes + 1)]
      cases hpr : pr with
      | none => exact .full (hw.absent hp)
      | some cq =>
        obtain ⟨p, hlt, ht, hc, hq⟩ := hw.noted cq.1 cq.2 hpr
        simp only [Option.map_some, Option.getD_some, hc, hq]
        exact .tombstone (by omega) (hw.path.mono hlt.le) ht (.inr (hw.absent hp))
    · rename_i hgo
      -- the limit and flag in force for this probe
      set pastBound' := pastBound || decide (probes = limit) with hpast
      set limit' := if probes = limit then opl else limit with hlimit
      have hlt : probes < limit' := by
        rw [hlimit]
        split
        · rename_i hp
          have : limit ≠ opl := fun ho => hgo ⟨hp, .inl ho⟩
          omega
        · have := hw.le; omega
      have hle : limit' ≤ opl := by rw [hlimit]; split <;> omega
      have hbefore : pastBound' = false → limit' = bound := by
        intro hpb
        simp only [hpast, Bool.or_eq_false_iff, decide_eq_false_iff_not] at hpb
        rw [hlimit, if_neg hpb.2]
        exact hw.before hpb.1
      have hpassed : pastBound' = true → limit' = opl ∧ bound ≤ probes ∧ pr = none := by
        intro hpb
        by_cases hp : probes = limit
        · refine ⟨by rw [hlimit, if_pos hp], ?_, ?_⟩
          · cases hpb' : pastBound with
            | false => rw [hp, hw.before hpb']
            | true => exact (hw.past hpb').2.1
          · by_contra hne
            exact hgo ⟨hp, .inr (Option.isSome_iff_ne_none.mpr hne)⟩
        · have hpb' : pastBound = true := by
            simpa [hpast, hp] using hpb
          rw [hlimit, if_neg hp]
          exact hw.past hpb'
      -- one more probe keeps the invariant
      have hnext : ∀ pr', m.word cfg h probes ≠ .empty →
          cfg.hit h key (m.word cfg h probes) = false → Noted cfg m h (probes + 1) pr' →
          (pastBound' = true → pr' = none) → (behavior = .tombstone → pr' = none) →
          Walking cfg m h key bound opl behavior (probes + 1) limit' pastBound' pr' := by
        intro pr' he hh hn hp hu
        refine ⟨hw.path.succ he hh, hlt, hw.bound_le, hbefore, fun hpb => ?_, hn, hu⟩
        exact ⟨(hpassed hpb).1, by have := (hpassed hpb).2.1; omega, hp hpb⟩
      have hleave : ¬ limit' < probes + 1 := by omega
      dsimp only
      split
      · rename_i hword
        simp only [probeLeave, if_neg hleave]
        exact .vacant (by omega) hw.path hword hw.noted.first
      · rename_i hword
        have hne : m.word cfg h probes ≠ .empty := by
          intro he; rw [word, hword] at he; cases he
        have hnohit : cfg.hit h key (m.word cfg h probes) = false := by
          rw [word, hword]; rfl
        cases hpr : pr with
        | some cq =>
          refine ih (hnext _ hne hnohit ?_ ?_ ?_) (by omega) hle
          · exact hpr ▸ hw.noted.mono (Nat.le_succ _)
          · intro hpb
            exact hpr ▸ (hpassed hpb).2.2
          · exact fun hb => hpr ▸ hw.unique hb
        | none =>
          dsimp only
          split
          · rename_i hstop
            refine .tombstone (by omega) hw.path hword ?_
            rcases hstop with hb | hpb
            · exact .inl hb
            · exact .inr (hw.path.mono (hpassed hpb).2.1)
          · rename_i hstop
            rw [not_or] at hstop
            refine ih (hnext _ hne hnohit ?_ ?_ ?_) (by omega) hle
            · intro c q hcq
              cases hcq
              exact ⟨probes, Nat.lt_succ_self _, hword, rfl, rfl⟩
            · exact fun hpb => absurd hpb hstop.2
            · exact fun hb => absurd hb hstop.1
      · rename_i tag val hword
        have hne : m.word cfg h probes ≠ .empty := by
          intro he; rw [word, hword] at he; cases he
        split
        · rename_i hhit
          simp only [probeLeave, if_neg hleave]
          exact .found (by omega) hw.path hword hhit hw.noted.first
        · rename_i hhit
          refine ih (hnext _ hne ?_ ?_ ?_ ?_) (by omega) hle
          · rw [word, hword]
            exact Bool.eq_false_iff.mpr hhit
          · exact hw.noted.mono (Nat.le_succ _)
          · exact fun hpb => (hpassed hpb).2.2
          · exact hw.unique

/-- The bound a probe with this behaviour and limit starts with. -/
def startBound (m : Map V) (h : BitVec 64) (limit : Nat) (behavior : ProbeBehavior) : Nat :=
  if behavior = .insert then m.boundGet h else limit

/-- `ck_hs_map_probe` ends in one of the four outcomes. -/
theorem probe_probed (cfg : Config V) (m : Map V) (h : BitVec 64) (key : V) (limit : Nat)
    (behavior : ProbeBehavior) (hb : m.startBound h limit behavior ≤ limit) :
    Probed cfg m h key (m.startBound h limit behavior) limit behavior
      (m.probe cfg h key limit behavior) := by
  refine probeLoop_probed ⟨?_, Nat.zero_le _, hb, fun _ => rfl, ?_, ?_, fun _ => rfl⟩ ?_
  · exact fun k hk => absurd hk (Nat.not_lt_zero k)
  · exact fun hf => absurd hf (by simp)
  · exact fun c q hcq => by cases hcq
  · omega

/-- The probe of a lookup stays within the bound of its key. -/
theorem probe_within (cfg : Config V) (m : Map V) (h : BitVec 64) (key : V) :
    Probed cfg m h key (m.boundGet h) (m.boundGet h) .probe
      (m.probe cfg h key (m.boundGet h) .probe) :=
  probe_probed cfg m h key (m.boundGet h) .probe le_rfl

/-! ## The reader's view -/

/-- The map in the eyes of a reader of `key` (`ck_hs_get`, `ck_hs.c:937-966`). -/
def view (cfg : Config V) (m : Map V) (key : V) : View V where
  probe n :=
    match m.word cfg (cfg.hf key) n with
    | .empty => .vacant
    | .tombstone => .other
    | .entry tag val => if cfg.hit (cfg.hf key) key (.entry tag val) then .hit val else .other
  bound := m.probeBound.map (fun b => b (m.home (cfg.hf key)))
  maximum := m.probeMaximum
  generation := m.generation ((cfg.hf key).toNat % generations)

section View

variable {cfg : Config V} {m : Map V} {key : V}

theorem view_limit : (m.view cfg key).limit wordMax = m.boundGet (cfg.hf key) := by
  unfold View.limit boundGet view
  cases m.probeBound <;> rfl

theorem view_probe_hit {n : Nat} {v : V} :
    (m.view cfg key).probe n = .hit v ↔
      ∃ tag, m.word cfg (cfg.hf key) n = .entry tag v ∧
        cfg.hit (cfg.hf key) key (.entry tag v) = true := by
  simp only [view]
  cases hw : m.word cfg (cfg.hf key) n with
  | empty => simp
  | tombstone => simp
  | entry tag val =>
    dsimp only
    split
    · rename_i hh
      constructor
      · intro he
        cases he
        exact ⟨tag, rfl, hh⟩
      · rintro ⟨t, ht, -⟩
        cases ht
        rfl
    · rename_i hh
      constructor
      · intro he; cases he
      · rintro ⟨t, ht, hh'⟩
        cases ht
        exact absurd hh' hh

theorem view_probe_vacant {n : Nat} :
    (m.view cfg key).probe n = .vacant ↔ m.word cfg (cfg.hf key) n = .empty := by
  simp only [view]
  cases hw : m.word cfg (cfg.hf key) n with
  | empty => simp
  | tombstone => simp
  | entry tag val =>
    dsimp only
    split <;> simp

theorem view_probe_other {n : Nat} :
    (m.view cfg key).probe n = .other ↔
      m.word cfg (cfg.hf key) n ≠ .empty ∧
        cfg.hit (cfg.hf key) key (m.word cfg (cfg.hf key) n) = false := by
  simp only [view]
  cases hw : m.word cfg (cfg.hf key) n with
  | empty => simp
  | tombstone => simp [Config.hit]
  | entry tag val =>
    dsimp only
    split
    · rename_i hh
      simp [hh]
    · rename_i hh
      simp [Bool.eq_false_iff.mpr hh]

/-- A probe within the key's own bound is the lookup of the reader's view. -/
theorem probe_object_eq_lookup :
    (m.probe cfg (cfg.hf key) key (m.boundGet (cfg.hf key)) .probe).object =
      (m.view cfg key).lookup wordMax := by
  have hp := probe_within cfg m (cfg.hf key) key
  have hnone : ∀ n, m.boundGet (cfg.hf key) ≤ n ∨ m.word cfg (cfg.hf key) n = .empty →
      m.Clear cfg (cfg.hf key) key n → none = (m.view cfg key).lookup wordMax := by
    intro n hn hclear
    symm
    by_contra hne
    obtain ⟨v, hv⟩ := Option.ne_none_iff_exists'.mp hne
    obtain ⟨k, -, hk, hhit, hbelow⟩ := (View.scan_eq_some _).mp hv
    rw [view_limit, Nat.zero_add] at hk
    obtain ⟨tag, hword, hh⟩ := view_probe_hit.mp hhit
    rcases Nat.lt_or_ge k n with hlt | hge
    · rw [← hword, (hclear k hlt).2] at hh
      cases hh
    · rcases hn with hn | hn
      · omega
      · rcases Nat.eq_or_lt_of_le hge with rfl | hlt
        · rw [hn] at hword; cases hword
        · exact (view_probe_other.mp (hbelow n (Nat.zero_le n) hlt)).1 hn
  revert hp
  generalize m.probe cfg (cfg.hf key) key (m.boundGet (cfg.hf key)) .probe = r
  intro hp
  cases hp with
  | @found n tag val priority nProbes lt path at_cursor hit first =>
    symm
    refine (View.scan_eq_some _).mpr ⟨n, Nat.zero_le _, ?_, ?_, fun k _ hk => ?_⟩
    · rw [view_limit]; omega
    · exact view_probe_hit.mpr ⟨_, at_cursor, hit⟩
    · exact view_probe_other.mpr (path k hk)
  | vacant lt path at_cursor first => exact hnone _ (.inr at_cursor) path
  | tombstone lt path at_priority absent =>
    rcases absent with h | h
    · cases h
    · exact hnone _ (.inl le_rfl) h
  | full absent => exact hnone _ (.inl le_rfl) absent

end View

end Map

end ConcurrencyKit.Hs
