import ConcurrencyKit.Ht.Operations

/-!
# What a probe finds

An entry is named by the bytes that are hashed for it. The probe loops compare key words first:
in direct mode this decides, in byte-string mode it is a shortcut that does not look at the
length (`hit_iff`, `hit_iff_ident`). `Walked` says what the outcomes of `ck_ht_map_probe_wr` mean
for the slots it walked over, and `ck_ht_map_probe_rd` finds the same slot.
-/

namespace ConcurrencyKit.Ht

/-! ## Keys -/

namespace Config

variable (cfg : Config)

/-- The model of byte-string mode is that of a build without pointer packing. -/
def Covered : Prop := cfg.mode = .bytestring → cfg.vmaBits = none

/-- The words that do not exist in a pointer-packing build. -/
def Packed (e : Entry) : Prop := cfg.vmaBits.isSome → e.keyLength = 0 ∧ e.hash = 0

/-- The hash value used for a stored entry is that of its key. -/
def Sound (e : Entry) : Prop := cfg.entryHash e = cfg.hashOf e

/-- Two strings at one address have one length. -/
def Unaliased (x e : Entry) : Prop :=
  cfg.mode = .bytestring → e.key = x.key → cfg.entryKeyLength e = cfg.entryKeyLength x

variable {cfg} {x e : Entry}

theorem wordBytes_injective {a b : Word} (h : wordBytes a = wordBytes b) : a = b := by
  apply BitVec.eq_of_getLsbD_eq
  intro i hi
  have hbyte : (wordBytes a)[i / 8]? = (wordBytes b)[i / 8]? := by rw [h]
  have hlt : i / 8 < 8 := by omega
  simp only [wordBytes, List.getElem?_map, List.getElem?_range hlt, Option.map_some,
    Option.some.injEq] at hbyte
  have hbit := congrArg (fun w : Byte => w.getLsbD (i % 8)) hbyte
  simp only [BitVec.getLsbD_setWidth, BitVec.getLsbD_ushiftRight] at hbit
  have hi' : 8 * (i / 8) + i % 8 = i := Nat.div_add_mod i 8
  have h8 : i % 8 < 8 := Nat.mod_lt _ (by decide)
  simpa only [h8, decide_true, Bool.true_and, hi'] using hbit

theorem ident_direct (hm : cfg.mode = .direct) : cfg.ident e = cfg.ident x ↔ e.key = x.key := by
  simp only [ident, hm]
  constructor
  · exact wordBytes_injective
  · intro h
    rw [h]

theorem string_length (p : Word) (n : Nat) : (cfg.string p n).length = n := by
  simp [string]

/-- Entries with one name have strings of one length. -/
theorem length_of_ident (hm : cfg.mode = .bytestring) (h : cfg.ident e = cfg.ident x) :
    cfg.entryKeyLength e = cfg.entryKeyLength x := by
  have hlen := congrArg List.length h
  simp only [ident, hm, string_length] at hlen
  exact BitVec.eq_of_toNat_eq hlen

/-- What the key test of the probe loops decides. -/
theorem hit_iff (hc : cfg.Covered) (hs : cfg.Sound e) :
    cfg.hit (cfg.hashOf x) x e = true ↔
      e.live = true ∧ (cfg.ident e = cfg.ident x ∨ e.key = x.key) := by
  unfold hit keyMatch
  rw [Bool.and_eq_true, Bool.or_eq_true, beq_iff_eq]
  refine and_congr_right fun _ => ?_
  cases hm : cfg.mode with
  | direct =>
    simp only [keyArg, hm]
    rw [show (Mode.direct == Mode.bytestring) = false from rfl, Bool.false_and, ident_direct hm]
    simp
  | bytestring =>
    have hv := hc hm
    have hkey : ∀ a : Entry, cfg.entryKey a = a.key := fun a => by simp only [entryKey, hv]
    have hhash : e.hash = cfg.hashOf e := by
      have := hs
      simp only [Sound, entryHash, hv] at this
      exact this
    simp only [keyArg, lengthArg, hm, memoMatch, hv, hkey, hhash]
    rw [show (Mode.bytestring == Mode.bytestring) = true from rfl, Bool.true_and]
    simp only [Bool.and_eq_true, beq_iff_eq, memcmp]
    constructor
    · rintro (h | ⟨hl, -, hb⟩)
      · exact .inr h
      · refine .inl ?_
        simp only [ident, hm, hkey, hl]
        exact hb
    · rintro (h | h)
      · have hl := length_of_ident hm h
        refine .inr ⟨hl, ?_, ?_⟩
        · rw [hashOf, hashOf, h]
        · simp only [ident, hm, hkey, hl] at h
          exact h
      · exact .inl h

/-- Without aliasing the key test decides whether two entries have one name. -/
theorem hit_iff_ident (hc : cfg.Covered) (hs : cfg.Sound e) (hu : cfg.Unaliased x e) :
    cfg.hit (cfg.hashOf x) x e = true ↔ e.live = true ∧ cfg.ident e = cfg.ident x := by
  rw [hit_iff hc hs]
  refine and_congr_right fun _ => or_iff_left_of_imp fun hk => ?_
  cases hm : cfg.mode with
  | direct => exact (ident_direct hm).mpr hk
  | bytestring => simp only [ident, hm, entryKey, hc hm, hk, hu hm hk]

/-- The key test is wrong about a live entry exactly if it is a string at the same address with
another length. -/
theorem hit_eq_ident_iff (hc : cfg.Covered) (hs : cfg.Sound e) (hl : e.live = true) :
    (cfg.hit (cfg.hashOf x) x e = true ↔ cfg.ident e = cfg.ident x) ↔ cfg.Unaliased x e := by
  constructor
  · intro h hm hk
    exact length_of_ident hm (h.mp ((hit_iff hc hs).mpr ⟨hl, .inr hk⟩))
  · intro hu
    rw [hit_iff_ident hc hs hu]
    exact and_iff_right hl

theorem hashOf_eq (h : cfg.ident e = cfg.ident x) : cfg.hashOf e = cfg.hashOf x := by
  rw [hashOf, hashOf, h]

end Config

/-! ## Probing -/

namespace Map

section Outcome

variable (cfg : Config) (m : Map) (h : Word) (x : Entry)

/-- The entry at probe index `n`. -/
def word (n : Nat) : Entry := m.entries (cfg.cursor m.capacity h n)

/-- The first `n` probes meet neither an empty slot nor the key. -/
def Clear (n : Nat) : Prop :=
  ∀ k < n, (m.word cfg h k).key ≠ keyEmpty ∧ cfg.hit h x (m.word cfg h k) = false

/-- The out parameters `*available` and `*probe_wr` of a probe that looked at `n` slots: a
tombstone passed on the way if there was one, with its probe count. -/
def First (n : Nat) (available : Option Nat) (probes probesWr : Nat) : Prop :=
  (available = none ∧ probesWr = probes) ∨
    ∃ p < n, (m.word cfg h p).key = keyTombstone ∧ available = some (cfg.cursor m.capacity h p) ∧
      probesWr = p + 1

/-- The outcomes of `ck_ht_map_probe_wr` with the given limit. -/
inductive Walked (limit : Nat) : ProbeResult → Prop
  | found {n probesWr : Nat} {available : Option Nat} (lt : n < m.probeSlots cfg)
      (path : m.Clear cfg h x n) (hit : cfg.hit h x (m.word cfg h n) = true)
      (first : m.First cfg h n available (n + 1) probesWr) :
      Walked limit
        ⟨some (cfg.cursor m.capacity h n), m.word cfg h n, available, n + 1, probesWr⟩
  | vacant {n probesWr : Nat} {available : Option Nat} (lt : n < m.probeSlots cfg)
      (path : m.Clear cfg h x n) (empty : (m.word cfg h n).key = keyEmpty)
      (first : m.First cfg h n available (n + 1) probesWr) :
      Walked limit
        ⟨some (cfg.cursor m.capacity h n), m.word cfg h n, available, n + 1, probesWr⟩
  | missed {n probes probesWr : Nat} {available : Option Nat} (path : m.Clear cfg h x n)
      (le : n ≤ m.probeSlots cfg) (past : n = m.probeSlots cfg ∨ limit < n)
      (first : m.First cfg h n available probes probesWr) :
      Walked limit ⟨none, .zero, available, probes, probesWr⟩

variable {cfg m h x}

theorem Clear.succ {n : Nat} (hc : m.Clear cfg h x n) (he : (m.word cfg h n).key ≠ keyEmpty)
    (hh : cfg.hit h x (m.word cfg h n) = false) : m.Clear cfg h x (n + 1) := by
  intro k hk
  rcases Nat.lt_succ_iff_lt_or_eq.mp hk with hlt | rfl
  · exact hc k hlt
  · exact ⟨he, hh⟩

/-- What the loop has noted in `first` after `n` probes. -/
def Noted (cfg : Config) (m : Map) (h : Word) (n : Nat) (first : Option (Nat × Nat)) : Prop :=
  ∀ c q, first = some (c, q) →
    ∃ p < n, (m.word cfg h p).key = keyTombstone ∧ c = cfg.cursor m.capacity h p ∧ q = p + 1

theorem Noted.mono {n k : Nat} {first : Option (Nat × Nat)} (hf : Noted cfg m h n first)
    (hk : n ≤ k) : Noted cfg m h k first := by
  intro c q hcq
  obtain ⟨p, hp, rest⟩ := hf c q hcq
  exact ⟨p, by omega, rest⟩

theorem Noted.or {n : Nat} {first : Option (Nat × Nat)} (hf : Noted cfg m h n first)
    (ht : (m.word cfg h n).key = keyTombstone) :
    Noted cfg m h (n + 1) (first.or (some (cfg.cursor m.capacity h n, n + 1))) := by
  cases first with
  | none =>
    intro c q hcq
    cases hcq
    exact ⟨n, Nat.lt_succ_self n, ht, rfl, rfl⟩
  | some cq => exact hf.mono (Nat.le_succ n)

theorem Noted.first {n probes : Nat} {first : Option (Nat × Nat)}
    (hf : Noted cfg m h n first) :
    m.First cfg h n (first.map Prod.fst) probes ((first.map Prod.snd).getD probes) := by
  cases first with
  | none => exact .inl ⟨rfl, rfl⟩
  | some cq =>
    obtain ⟨p, hp, ht, hc, hq⟩ := hf cq.1 cq.2 rfl
    exact .inr ⟨p, hp, ht, congrArg some hc, hq⟩

end Outcome

theorem live_of_ne {e : Entry} (he : e.key ≠ keyEmpty) (ht : e.key ≠ keyTombstone) :
    e.live = true := by
  simp [Entry.live, he, ht]

theorem ne_of_live {e : Entry} (h : e.live = true) : e.key ≠ keyEmpty ∧ e.key ≠ keyTombstone := by
  simpa [Entry.live] using h

section Walk

variable {cfg : Config} {m : Map} {h : Word} {x : Entry}

theorem hit_tombstone {e : Entry} (ht : e.key = keyTombstone) : cfg.hit h x e = false := by
  simp [Config.hit, Entry.live, ht]

theorem hit_eq_keyMatch {e : Entry} (he : e.key ≠ keyEmpty) (ht : e.key ≠ keyTombstone) :
    cfg.hit h x e = cfg.keyMatch h (cfg.keyArg x) (cfg.lengthArg x) e := by
  rw [Config.hit, live_of_ne he ht, Bool.true_and]

theorem probeWrLoop_walked {limit remaining probes : Nat} {first : Option (Nat × Nat)}
    (hpath : m.Clear cfg h x probes) (hnoted : Noted cfg m h probes first)
    (hsum : probes + remaining = m.probeSlots cfg) :
    m.Walked cfg h x limit
      (m.probeWrLoop cfg h (cfg.keyArg x) (cfg.lengthArg x) limit remaining probes first) := by
  induction remaining generalizing probes first with
  | zero => exact .missed hpath hsum.le (.inl hsum) hnoted.first
  | succ remaining ih =>
    rw [probeWrLoop]
    split
    · exact .missed hpath (by omega) (.inr ‹_›) hnoted.first
    · dsimp only
      split
      · rename_i ht
        refine ih (hpath.succ ?_ (hit_tombstone ht)) (hnoted.or ht) (by omega)
        rw [word, ht]
        decide
      · rename_i ht
        split
        · rename_i hstop
          by_cases he : (m.word cfg h probes).key = keyEmpty
          · exact .vacant (by omega) hpath he hnoted.first
          · refine .found (by omega) hpath ?_ hnoted.first
            rw [hit_eq_keyMatch he ht]
            exact hstop.resolve_left he
        · rename_i hgo
          rw [not_or, Bool.not_eq_true] at hgo
          refine ih (hpath.succ hgo.1 ?_) (hnoted.mono (Nat.le_succ _)) (by omega)
          exact (hit_eq_keyMatch hgo.1 ht).trans hgo.2

/-- `ck_ht_map_probe_wr` ends in one of the three outcomes. -/
theorem probeWr_walked (cfg : Config) (m : Map) (h : Word) (x : Entry) (limit : Nat) :
    m.Walked cfg h x limit (m.probeWr cfg h x limit) :=
  probeWrLoop_walked (fun k hk => absurd hk (Nat.not_lt_zero k)) nofun (Nat.zero_add _)

/-- `ck_ht_map_probe_rd` ends at the slot at which `ck_ht_map_probe_wr` ends with its limit. -/
theorem probeRdLoop_eq {limit remaining probes : Nat} {first : Option (Nat × Nat)}
    {key : Word} {keyLength : BitVec 16} :
    m.probeRdLoop cfg h key keyLength limit remaining probes =
      (m.probeWrLoop cfg h key keyLength limit remaining probes first).cursor.map
        fun c => (c, m.entries c) := by
  induction remaining generalizing probes first with
  | zero => rfl
  | succ remaining ih =>
    rw [probeRdLoop, probeWrLoop]
    split
    · rfl
    · dsimp only
      split
      · exact ih
      · split
        · rfl
        · exact ih

theorem probeRd_eq : m.probeRd cfg h x =
    (m.probeWr cfg h x (m.boundGet h)).cursor.map fun c => (c, m.entries c) :=
  probeRdLoop_eq

/-- The snapshot is the entry of the slot that was found. -/
theorem Walked.snapshot_eq {limit : Nat} {r : ProbeResult} (hw : m.Walked cfg h x limit r)
    {c : Nat} (hc : r.cursor = some c) : r.snapshot = m.entries c := by
  cases hw with
  | found lt path hit first => cases hc; rfl
  | vacant lt path empty first => cases hc; rfl
  | missed path le past first => cases hc

end Walk

end Map

end ConcurrencyKit.Ht
