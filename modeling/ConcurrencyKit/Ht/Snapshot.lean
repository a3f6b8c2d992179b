import ConcurrencyKit.Ht.Standing

/-!
# The snapshots of `ck_ht_get_spmc`

Beside a calm writer, a lookup that ends with an unchanged deletion counter has had to do with one
arrangement of the map: every slot it found live was left alone but for its value and its key, and
the key it looks for, if it was there all the time, stayed where its probe first meets it. What
`Knows` says of the program counters holds as long as the counter is the one that was loaded first;
a call that ends has compared the two.

The move of `ck_ht_set_spmc` stores the memoized words before it changes the counter. A lookup that
has loaded the key of the slot earlier then returns words of two associations.
-/

namespace ConcurrencyKit.Ht

open Map

/-! ## What a lookup has seen -/

section Moments

variable {cfg : Config} {c : Get} {e : Entry}

/-- A call that has witnessed one more state of the memory. -/
def Get.extend (c : Get) (mem : Memory) : Get := { c with moments := mem :: c.moments }

theorem Get.Saw.extend (h : c.Saw e) (mem : Memory) : (c.extend mem).Saw e := by
  obtain ⟨m, hm, hcur⟩ := h
  exact ⟨m, List.mem_cons_of_mem _ hm, hcur⟩

theorem Get.Throughout.of_extend {mem : Memory} (h : (c.extend mem).Throughout cfg) :
    c.Throughout cfg :=
  fun m hm => h m (List.mem_cons_of_mem _ hm)

/-- The memory was valid at every moment of the call, and the counters have not gone back. -/
def Get.Lived (cfg : Config) (c : Get) : Prop :=
  ∀ m ∈ c.moments, m.Inv cfg ∧ c.start.bumps ≤ m.bumps

/-- An entry that was seen is live and has the hash value of its key. -/
theorem Get.Saw.proper (h : c.Saw e) (hlived : c.Lived cfg) : e.live = true ∧ cfg.Sound e := by
  obtain ⟨m, hm, hcur⟩ := h
  exact ⟨hcur.1.1, (hlived m hm).1.legal.sound hcur⟩

end Moments

/-! ## The map that a lookup reads -/

/-- What is in the map, if it is no longer the current one, was associated when it was retired. -/
structure Held (cfg : Config) (mem : Memory) (c : Get) (map : Nat) : Prop where
  le : map ≤ mem.current
  saw : map ≠ mem.current → ∀ e ∈ (mem.maps map).objects, c.Saw e
  kept : map ≠ mem.current → c.Throughout cfg →
    ∃ e ∈ (mem.maps map).objects, cfg.ident e = cfg.ident c.key

section HeldFacts

variable {cfg : Config} {mem mem' : Memory} {c : Get} {map : Nat} {ph : Phase}

theorem Held.objects_saw (h : Held cfg mem c map) (hst : mem.Standing cfg map ph)
    (hnow : mem ∈ c.moments) {e : Entry} (he : e ∈ (mem.maps map).objects) : c.Saw e := by
  by_cases hcur : map = mem.current
  · subst hcur
    exact ⟨mem, hnow, hst.current he⟩
  · exact h.saw hcur e he

/-- A key that is associated throughout the call is in the map. -/
theorem Held.present (h : Held cfg mem c map) (hst : mem.Standing cfg map ph)
    (hnow : mem ∈ c.moments) (hall : c.Throughout cfg) :
    (mem.maps map).Present cfg ph c.key := by
  by_cases hcur : map = mem.current
  · subst hcur
    exact hst.present (hall mem hnow)
  · obtain ⟨e, ⟨hlive, s, rfl⟩, hid⟩ := h.kept hcur hall
    refine ⟨s, hlive, hid, fun n hph => ?_⟩
    rw [hst.retired hcur] at hph
    cases hph

theorem Held.write (hcov : cfg.Covered) (hi : mem.Inv cfg) (hnow : mem ∈ c.moments)
    (hw : mem.Write cfg (Memory.CalmCall cfg) mem') (h : Held cfg mem c map) :
    Held cfg mem' (c.extend mem') map := by
  obtain ⟨ph, hst⟩ := hi.standing map h.le
  have hle := (Memory.current_le hcov hi hw).1
  rcases hst.write hcov hi hw h.le with ⟨hm, -⟩ | ⟨hcur, hcur', -⟩
  · refine ⟨h.le.trans hle, fun _ e he => ?_, fun _ hall => ?_⟩
    · rw [hm] at he
      exact (h.objects_saw hst hnow he).extend mem'
    · rw [hm]
      obtain ⟨s, hlive, hid, -⟩ := h.present hst hnow hall.of_extend
      exact ⟨_, ⟨hlive, s, rfl⟩, hid⟩
  · have he : map = mem'.current := hcur.trans hcur'.symm
    exact ⟨he.le, fun hne => absurd he hne, fun hne => absurd he hne⟩

end HeldFacts

/-! ## What a lookup knows -/

/-- A scan is at probe index `n` of the probe sequence. -/
structure Scan.Aligned (cfg : Config) (m : Map) (h : Word) (sc : Scan) : Prop where
  probes : sc.probes = sc.n
  offset : sc.offset = cfg.offset m.capacity h (sc.n / cfg.bucketLength)
  lt : sc.n < m.probeSlots cfg

/-- If the key was associated throughout the call, the lookup will meet it at index `n`. -/
def Ahead (cfg : Config) (m : Map) (c : Get) (ph : Phase) (Q : Nat → Prop) : Prop :=
  c.Throughout cfg → ∃ n, m.Anchored cfg ph c.key n ∧ Q n

/-- The lookup has not passed index `n`, nor does its probe bound end before. -/
def Scan.Reaching (sc : Scan) (n : Nat) : Prop := sc.n ≤ n ∧ n < sc.bound

/-- The entry that a lookup is about to make of key `w` and the other words of its slot. -/
def Scan.glimpse (cfg : Config) (m : Map) (sc : Scan) (w : Word) : Entry :=
  { m.entries (sc.cursor cfg) with key := w }

/-- What follows from having loaded key `w`. -/
structure Gaze (cfg : Config) (m : Map) (c : Get) (ph : Phase) (sc : Scan) (w : Word) : Prop where
  aligned : sc.Aligned cfg m (cfg.hashOf c.key)
  unused : w ≠ keyEmpty → w ≠ keyTombstone → ph ≠ .reusing (sc.cursor cfg)
  key : w ≠ keyEmpty → w ≠ keyTombstone →
    (m.entries (sc.cursor cfg)).key = w ∨ (m.entries (sc.cursor cfg)).key = keyTombstone
  saw : w ≠ keyEmpty → w ≠ keyTombstone → c.Saw (sc.glimpse cfg m w)
  ahead : Ahead cfg m c ph fun n => w ≠ keyEmpty ∧ sc.Reaching n ∧
    (sc.n = n → w ≠ keyTombstone ∧ cfg.ident (sc.glimpse cfg m w) = cfg.ident c.key)

/-- The words that were loaded after a key are those of its slot. -/
def Scan.Loaded (cfg : Config) (m : Map) (sc : Scan) (w : Word) (field : Entry → Word)
    (word : Word) : Prop :=
  w ≠ keyEmpty → w ≠ keyTombstone → word = field (m.entries (sc.cursor cfg))

/-- What a lookup that is about to leave the loops owes. -/
def Answers (cfg : Config) (c : Get) (result : Option Entry) : Prop :=
  (∀ e, result = some e → c.Saw e ∧ cfg.hit (cfg.hashOf c.key) c.key e = true) ∧
    (c.Throughout cfg → result ≠ none)

/-- What a candidate of byte-string mode has passed before the bytes are compared. -/
structure Candidate (cfg : Config) (x e : Entry) : Prop where
  mode : cfg.mode = .bytestring
  length : cfg.entryKeyLength e = cfg.lengthArg x
  memo : cfg.memoMatch (cfg.hashOf x) e = true

/-- What a lookup knows while the counter is the one it has loaded first. -/
def Knows (cfg : Config) (m : Map) (c : Get) (ph : Phase) : Pc → Prop
  | .loadBound _ _ probes | .loadMaximum _ _ probes => probes = 0
  | .slot sc => sc.Aligned cfg m (cfg.hashOf c.key) ∧ Ahead cfg m c ph sc.Reaching
  | .loadKey sc d => d = sc.d ∧ sc.Aligned cfg m (cfg.hashOf c.key) ∧ Ahead cfg m c ph sc.Reaching
  | .loadKeyLength sc d w => d = sc.d ∧ Gaze cfg m c ph sc w
  | .loadHash sc d w keyLength =>
    d = sc.d ∧ Gaze cfg m c ph sc w ∧ sc.Loaded cfg m w Entry.keyLength keyLength
  | .loadValue sc d w keyLength hash =>
    d = sc.d ∧ Gaze cfg m c ph sc w ∧ sc.Loaded cfg m w Entry.keyLength keyLength ∧
      sc.Loaded cfg m w Entry.hash hash
  | .recheck sc d snapshot =>
    d = sc.d ∧ sc.Aligned cfg m (cfg.hashOf c.key) ∧ c.Saw snapshot ∧
      Candidate cfg c.key snapshot ∧
      Ahead cfg m c ph fun n =>
        sc.Reaching n ∧ (sc.n = n → cfg.ident snapshot = cfg.ident c.key)
  | .leave _ _ snapshot => Answers cfg c (snapshot.bind Entry.nonempty)
  | _ => True

/-! ## The writer goes on -/

/-- A store of a calm writer that neither publishes a map nor changes the counter. -/
structure CalmStore (cfg : Config) (m : Map) (ph : Phase) (st : Store) (ph' : Phase) : Prop where
  valid : m.Valid cfg ph
  allowed : ∃ k, k ≠ .rough ∧ m.Allowed cfg ph st ph' k
  no_map : ∀ update, st ≠ .map update
  no_bump : st ≠ m.bump

section Writes

variable {cfg : Config} {m : Map} {ph ph' : Phase} {st : Store} {c : Get} {mem' : Memory}
  {sc : Scan} {w : Word}

theorem Scan.Aligned.congr {m' : Map} {h : Word} (ha : sc.Aligned cfg m h)
    (hc : m'.capacity = m.capacity) : sc.Aligned cfg m' h := by
  refine ⟨ha.probes, ?_, ?_⟩
  · rw [hc]
    exact ha.offset
  · unfold probeSlots probeLimit
    rw [hc]
    exact ha.lt

theorem Scan.Aligned.write {h : Word} (hs : CalmStore cfg m ph st ph')
    (ha : sc.Aligned cfg m h) : sc.Aligned cfg (m.apply st) h :=
  ha.congr (apply_capacity hs.no_map)

theorem Ahead.imp {Q Q' : Nat → Prop} (h : Ahead cfg m c ph Q) (hQ : ∀ n, Q n → Q' n) :
    Ahead cfg m c ph Q' := by
  intro hall
  obtain ⟨n, ha, hq⟩ := h hall
  exact ⟨n, ha, hQ n hq⟩

theorem Ahead.extend {Q : Nat → Prop} (h : Ahead cfg m c ph Q) (mem : Memory) :
    Ahead cfg m (c.extend mem) ph Q :=
  fun hall => h hall.of_extend

/-- The key stays where the lookup will meet it. -/
theorem Ahead.write (hs : CalmStore cfg m ph st ph')
    (hpres : (c.extend mem').Throughout cfg → (m.apply st).Present cfg ph' c.key)
    {Q : Nat → Prop} (h : Ahead cfg m c ph Q) :
    Ahead cfg (m.apply st) (c.extend mem') ph' Q := by
  intro hall
  obtain ⟨n, ha, hq⟩ := h hall.of_extend
  obtain ⟨k, hk, hal⟩ := hs.allowed
  exact ⟨n, hal.keep hs.valid hk hs.no_map hs.no_bump (hpres hall) ha, hq⟩

/-- The slot whose key was loaded changes in calm ways only. -/
theorem Gaze.slotChange (hs : CalmStore cfg m ph st ph') (h : Gaze cfg m c ph sc w)
    (he : w ≠ keyEmpty) (ht : w ≠ keyTombstone) :
    ph' ≠ .reusing (sc.cursor cfg) ∧
      SlotChange (m.entries (sc.cursor cfg)) ((m.apply st).entries (sc.cursor cfg)) := by
  obtain ⟨k, hk, hal⟩ := hs.allowed
  refine hal.slotChange hs.valid hk hs.no_map hs.no_bump (h.unused he ht) ?_
  rcases h.key he ht with hkey | hkey
  · rw [hkey]
    exact he
  · rw [hkey]
    decide

theorem Scan.Loaded.write {field : Entry → Word} {word : Word} (hs : CalmStore cfg m ph st ph')
    (hfield : ∀ (e : Entry) (v k : Word), field { e with value := v } = field e ∧
      field { e with key := k } = field e)
    (hg : Gaze cfg m c ph sc w) (h : sc.Loaded cfg m w field word) :
    sc.Loaded cfg (m.apply st) w field word := by
  intro he ht
  rw [h he ht]
  rcases (hg.slotChange hs he ht).2 with heq | ⟨v, -, heq⟩ | ⟨-, heq⟩
  · rw [heq]
  · rw [heq, (hfield _ v 0).1]
  · rw [heq, (hfield _ 0 keyTombstone).2]

/-- The entry in the making stays one that was seen: its value changes only in its slot. -/
theorem Gaze.write (hs : CalmStore cfg m ph st ph')
    (hsaw : ∀ e ∈ (m.apply st).objects, (c.extend mem').Saw e)
    (hpres : (c.extend mem').Throughout cfg → (m.apply st).Present cfg ph' c.key)
    (h : Gaze cfg m c ph sc w) : Gaze cfg (m.apply st) (c.extend mem') ph' sc w where
  aligned := h.aligned.write hs
  unused he ht := (h.slotChange hs he ht).1
  key he ht := by
    rcases (h.slotChange hs he ht).2 with heq | ⟨v, -, heq⟩ | ⟨-, heq⟩
    · rw [heq]
      exact h.key he ht
    · rw [heq]
      exact h.key he ht
    · rw [heq]
      exact .inr rfl
  saw he ht := by
    unfold Scan.glimpse
    rcases (h.slotChange hs he ht).2 with heq | ⟨v, hlive, heq⟩ | ⟨-, heq⟩
    · rw [heq]
      exact (h.saw he ht).extend mem'
    · -- the slot still holds the key, so what it holds now is seen now
      have hkey : (m.entries (sc.cursor cfg)).key = w :=
        (h.key he ht).resolve_right (ne_of_live hlive).2
      refine hsaw _ ⟨live_of_ne he ht, sc.cursor cfg, ?_⟩
      rw [heq, ← hkey]
    · rw [heq]
      exact (h.saw he ht).extend mem'
  ahead := by
    refine (h.ahead.write hs hpres).imp fun n hq => ⟨hq.1, hq.2.1, fun hn => ?_⟩
    obtain ⟨ht, hid⟩ := hq.2.2 hn
    refine ⟨ht, Eq.trans ?_ hid⟩
    unfold Scan.glimpse
    rcases (h.slotChange hs hq.1 ht).2 with heq | ⟨v, -, heq⟩ | ⟨-, heq⟩
    · rw [heq]
    · rw [heq]
      exact ident_congr rfl fun _ => rfl
    · rw [heq]

theorem Gaze.extend (h : Gaze cfg m c ph sc w) (mem : Memory) :
    Gaze cfg m (c.extend mem) ph sc w :=
  ⟨h.aligned, h.unused, h.key, fun he ht => (h.saw he ht).extend mem, h.ahead.extend mem⟩

theorem Answers.extend {result : Option Entry} (h : Answers cfg c result) (mem : Memory) :
    Answers cfg (c.extend mem) result :=
  ⟨fun e he => ⟨(h.1 e he).1.extend mem, (h.1 e he).2⟩, fun hall => h.2 hall.of_extend⟩

/-- A step of the writer that leaves the map alone takes nothing from a lookup. -/
theorem Knows.extend {pc : Pc} (h : Knows cfg m c ph pc) (mem : Memory) :
    Knows cfg m (c.extend mem) ph pc := by
  cases pc with
  | slot sc => exact ⟨h.1, h.2.extend mem⟩
  | loadKey sc d => exact ⟨h.1, h.2.1, h.2.2.extend mem⟩
  | loadKeyLength sc d w => exact ⟨h.1, h.2.extend mem⟩
  | loadHash sc d w keyLength => exact ⟨h.1, h.2.1.extend mem, h.2.2⟩
  | loadValue sc d w keyLength hash => exact ⟨h.1, h.2.1.extend mem, h.2.2⟩
  | recheck sc d snapshot =>
    obtain ⟨hd, hal, hsaw, hcand, hahead⟩ := h
    exact ⟨hd, hal, hsaw.extend mem, hcand, hahead.extend mem⟩
  | leave map d snapshot => exact Answers.extend h mem
  | _ => exact h

/-- What a lookup knows, it still knows after a store that leaves the counter alone. -/
theorem Knows.write {pc : Pc} (hs : CalmStore cfg m ph st ph')
    (hsaw : ∀ e ∈ (m.apply st).objects, (c.extend mem').Saw e)
    (hpres : (c.extend mem').Throughout cfg → (m.apply st).Present cfg ph' c.key)
    (h : Knows cfg m c ph pc) : Knows cfg (m.apply st) (c.extend mem') ph' pc := by
  cases pc with
  | slot sc => exact ⟨h.1.write hs, h.2.write hs hpres⟩
  | loadKey sc d => exact ⟨h.1, h.2.1.write hs, h.2.2.write hs hpres⟩
  | loadKeyLength sc d w => exact ⟨h.1, h.2.write hs hsaw hpres⟩
  | loadHash sc d w keyLength =>
    obtain ⟨hd, hg, hlen⟩ := h
    exact ⟨hd, hg.write hs hsaw hpres, hlen.write hs (fun _ _ _ => ⟨rfl, rfl⟩) hg⟩
  | loadValue sc d w keyLength hash =>
    obtain ⟨hd, hg, hlen, hhash⟩ := h
    exact ⟨hd, hg.write hs hsaw hpres, hlen.write hs (fun _ _ _ => ⟨rfl, rfl⟩) hg,
      hhash.write hs (fun _ _ _ => ⟨rfl, rfl⟩) hg⟩
  | recheck sc d snapshot =>
    obtain ⟨hd, hal, hseen, hcand, hahead⟩ := h
    exact ⟨hd, hal.write hs, hseen.extend mem', hcand, hahead.write hs hpres⟩
  | leave map d snapshot => exact Answers.extend h mem'
  | _ => exact h

end Writes

/-! ## The invariant of a lookup -/

/-- The map that a lookup reads. -/
def Pc.map : Pc → Option Nat
  | .loadDeletions map | .loadBound map _ _ | .loadMaximum map _ _ | .leave map _ _ => some map
  | .slot sc | .loadKey sc _ | .loadKeyLength sc _ _ | .loadHash sc _ _ _
  | .loadValue sc _ _ _ _ | .recheck sc _ _ => some sc.map
  | .loadMap | .done _ => none

/-- The counter that `ck_ht_get_spmc` has loaded from it. -/
def Pc.counter : Pc → Option Nat
  | .loadBound _ d _ | .loadMaximum _ d _ | .leave _ d _ => some d
  | .slot sc | .loadKey sc _ | .loadKeyLength sc _ _ | .loadHash sc _ _ _
  | .loadValue sc _ _ _ _ | .recheck sc _ _ => some sc.d
  | .loadMap | .loadDeletions _ | .done _ => none

/-- The counter has changed `k` times since the lookup loaded it. If it has not changed at all,
the lookup has the knowledge of its program counter. -/
def Fresh (cfg : Config) (mem : Memory) (c : Get) (map d : Nat) (pc : Pc) : Prop :=
  ∃ k, c.start.bumps + k ≤ mem.bumps ∧ (mem.maps map).deletions = (d + k) % 2 ^ 64 ∧
    (k = 0 → ∃ ph, mem.Standing cfg map ph ∧ Knows cfg (mem.maps map) c ph pc)

/-- The invariant of a lookup that stands at `pc`. -/
structure Looking (cfg : Config) (mem : Memory) (c : Get) (pc : Pc) : Prop where
  lived : c.Lived cfg
  held : ∀ map, pc.map = some map → Held cfg mem c map
  fresh : ∀ map d, pc.map = some map → pc.counter = some d →
    d < 2 ^ 64 ∧ Fresh cfg mem c map d pc
  answers : ∀ result, pc = .done result → c.Brief → Answers cfg c result

section Keeps

variable {cfg : Config} {mem mem' : Memory} {c : Get} {map d : Nat} {pc : Pc}

/-- A step of the writer leaves the counter alone, or it counts. -/
theorem Fresh.write (hcov : cfg.Covered) (hi : mem.Inv cfg) (hnow : mem ∈ c.moments)
    (hw : mem.Write cfg (Memory.CalmCall cfg) mem') (hh : Held cfg mem c map)
    (h : Fresh cfg mem c map d pc) : Fresh cfg mem' (c.extend mem') map d pc := by
  obtain ⟨k, hbumps, hdel, hknow⟩ := h
  have hle := (Memory.current_le hcov hi hw).2
  have hheld := hh.write hcov hi hnow hw
  obtain ⟨ph, hst⟩ := hi.standing map hh.le
  have hcount : (mem'.maps map).deletions = (mem.maps map).deletions ∨
      ((mem'.maps map).deletions = inc 64 (mem.maps map).deletions ∧ mem.bumps < mem'.bumps) := by
    rcases hst.write hcov hi hw hh.le with ⟨hm, -⟩ | ⟨-, -, st, ph', j, -, hmap, hal, hm, -, hb⟩
    · exact .inl (by rw [hm])
    · rcases hal.deletions hmap with rfl | ⟨-, hd⟩
      · exact .inr ⟨by rw [hm]; rfl, hb ⟨_, rfl⟩⟩
      · exact .inl (by rw [hm, hd])
  rcases hcount with hsame | ⟨hinc, hlt⟩
  · refine ⟨k, hbumps.trans hle, hsame.trans hdel, fun hk => ?_⟩
    obtain ⟨ph, hst, hkn⟩ := hknow hk
    rcases hst.write hcov hi hw hh.le with
      ⟨hm, hst'⟩ | ⟨-, -, st, ph', j, hj, hmap, hal, hm, hst', -⟩
    · exact ⟨ph, hst', by rw [hm]; exact hkn.extend mem'⟩
    · have hs : CalmStore cfg (mem.maps map) ph st ph' := by
        refine ⟨hst.valid, ⟨j, hj, hal⟩, hmap, ?_⟩
        rintro rfl
        rw [hm] at hsame
        have hlt := hst.valid.deletions_lt
        have : inc 64 (mem.maps map).deletions = (mem.maps map).deletions := hsame
        unfold inc at this
        omega
      refine ⟨ph', hst', ?_⟩
      have hsaw := fun e he => @Held.objects_saw cfg mem' (c.extend mem') map ph' hheld hst'
        List.mem_cons_self e he
      have hpres := hheld.present hst' List.mem_cons_self
      rw [hm] at hsaw hpres ⊢
      exact hkn.write hs hsaw hpres
  · refine ⟨k + 1, ?_, ?_, nofun⟩
    · change c.start.bumps + (k + 1) ≤ mem'.bumps
      omega
    · rw [hinc, hdel, inc]
      omega

theorem Looking.write (hcov : cfg.Covered) (hi : mem.Inv cfg)
    (hw : mem.Write cfg (Memory.CalmCall cfg) mem') (hrun : pc.isDone = false)
    (hnow : mem ∈ c.moments) (h : Looking cfg mem c pc) :
    Looking cfg mem' (c.extend mem') pc where
  lived m hm := by
    rcases List.mem_cons.mp hm with rfl | hm'
    · exact ⟨hi.write hcov hw, ((h.lived mem hnow).2).trans (Memory.current_le hcov hi hw).2⟩
    · exact h.lived m hm'
  held map hmap := (h.held map hmap).write hcov hi hnow hw
  fresh map d hmap hd := by
    obtain ⟨hlt, hf⟩ := h.fresh map d hmap hd
    exact ⟨hlt, hf.write hcov hi hnow hw (h.held map hmap)⟩
  answers result hpc := by
    rw [hpc] at hrun
    cases hrun

/-- A lookup that has returned has nothing to do with the memory. -/
theorem Looking.done (hdone : pc.isDone = true) (h : Looking cfg mem c pc) :
    Looking cfg mem' c pc := by
  cases pc with
  | done result => exact ⟨h.lived, nofun, nofun, h.answers⟩
  | _ => cases hdone

/-- Where the call itself is recorded to stand does not matter. -/
theorem Looking.goto (h : Looking cfg mem c pc) : Looking cfg mem { c with pc := pc } pc where
  lived := h.lived
  held map hmap := ⟨(h.held map hmap).le, (h.held map hmap).saw, (h.held map hmap).kept⟩
  fresh map d hmap hd := by
    obtain ⟨hlt, k, hbumps, hdel, hknow⟩ := h.fresh map d hmap hd
    refine ⟨hlt, k, hbumps, hdel, fun hk => ?_⟩
    obtain ⟨ph, hst, hkn⟩ := hknow hk
    refine ⟨ph, hst, ?_⟩
    cases pc with
    | loadKeyLength sc d w =>
      obtain ⟨hd, hg⟩ := hkn
      exact ⟨hd, hg.aligned, hg.unused, hg.key, hg.saw, hg.ahead⟩
    | loadHash sc d w keyLength =>
      obtain ⟨hd, hg, hl⟩ := hkn
      exact ⟨hd, ⟨hg.aligned, hg.unused, hg.key, hg.saw, hg.ahead⟩, hl⟩
    | loadValue sc d w keyLength hash =>
      obtain ⟨hd, hg, hl⟩ := hkn
      exact ⟨hd, ⟨hg.aligned, hg.unused, hg.key, hg.saw, hg.ahead⟩, hl⟩
    | _ => exact hkn
  answers := h.answers

end Keeps

/-! ## The lookup goes on -/

section Loads

variable {cfg : Config} {m : Map} {c : Get} {ph : Phase} {sc : Scan} {w : Word}

theorem Scan.Aligned.cursor_eq {h : Word} (ha : sc.Aligned cfg m h) :
    sc.cursor cfg = cfg.cursor m.capacity h sc.n := by
  unfold Scan.cursor
  rw [ha.offset]
  rfl

theorem Scan.Aligned.word_eq {h : Word} (ha : sc.Aligned cfg m h) :
    m.entries (sc.cursor cfg) = m.word cfg h sc.n := by
  rw [word, ha.cursor_eq]

theorem Scan.Aligned.next {h : Word} (ha : sc.Aligned cfg m h)
    (hlt : sc.n + 1 < m.probeSlots cfg) : (sc.next cfg m h).Aligned cfg m h := by
  have hB := bucketLength_pos cfg
  refine ⟨congrArg (· + 1) ha.probes, ?_, hlt⟩
  simp only [Scan.next]
  split
  · rename_i hrow
    have hdiv : (sc.n + 1) / cfg.bucketLength = sc.n / cfg.bucketLength + 1 :=
      Nat.succ_div_of_mod_eq_zero hrow
    have hmul : cfg.bucketLength * (sc.n / cfg.bucketLength + 1) = sc.n + 1 := by
      rw [← hdiv]
      exact Nat.mul_div_cancel' (Nat.dvd_of_mod_eq_zero hrow)
    rw [hdiv, Config.offset, hmul, ha.offset, ha.probes]
  · rename_i hrow
    rw [Nat.succ_div_of_mod_ne_zero hrow]
    exact ha.offset

theorem Scan.continue_pc (h : Word) :
    (sc.continue cfg m h).map = some sc.map ∧ (sc.continue cfg m h).counter = some sc.d := by
  unfold Scan.continue
  split <;> exact ⟨rfl, rfl⟩

theorem Scan.judge_pc {x : Entry} {d : Nat} {e : Entry} :
    (sc.judge cfg m x d e).map = some sc.map ∧ (sc.judge cfg m x d e).counter = some sc.d := by
  have hc := @Scan.continue_pc cfg m sc (cfg.hashOf x)
  unfold Scan.judge
  split
  · exact hc
  · split
    · exact ⟨rfl, rfl⟩
    · split
      · exact ⟨rfl, rfl⟩
      · split
        · exact ⟨rfl, rfl⟩
        · exact hc

/-- A lookup that did not find the key goes on to where it is. -/
theorem Knows.continue (hv : m.Valid cfg ph) (ha : sc.Aligned cfg m (cfg.hashOf c.key))
    (h : Ahead cfg m c ph fun n => sc.Reaching n ∧ sc.n ≠ n) :
    Knows cfg m c ph (sc.continue cfg m (cfg.hashOf c.key)) := by
  unfold Scan.continue
  split
  · rename_i hlt
    refine ⟨ha.next hlt, h.imp fun n hn => ⟨?_, hn.1.2⟩⟩
    exact Nat.lt_of_le_of_ne hn.1.1 hn.2
  · rename_i hge
    refine ⟨nofun, fun hall _ => ?_⟩
    obtain ⟨n, hanch, ⟨hle, -⟩, hne⟩ := h hall
    have := (hanch.reached hv).1
    omega

/-- The probe loops start. -/
theorem Knows.first {map d bound probes : Nat} (hv : m.Valid cfg ph) (hprobes : probes = 0)
    (hpres : c.Throughout cfg → m.Present cfg ph c.key)
    (hbound : ∀ n, m.Covers (cfg.hashOf c.key) n → n < bound) :
    Knows cfg m c ph (.slot (.first m (cfg.hashOf c.key) map d bound probes)) := by
  refine ⟨⟨hprobes, ?_, ?_⟩, fun hall => ?_⟩
  · rw [Scan.first, Nat.zero_div]
    rfl
  · refine Nat.mul_pos (bucketLength_pos cfg) ?_
    unfold probeLimit
    omega
  · obtain ⟨n, ha⟩ := hv.anchored (hpres hall)
    exact ⟨n, ha, Nat.zero_le n, hbound n (ha.reached hv).2.1⟩

/-- The lookup loads the key of its slot. -/
theorem Gaze.of_load (hv : m.Valid cfg ph) (hsaw : ∀ e ∈ m.objects, c.Saw e)
    (ha : sc.Aligned cfg m (cfg.hashOf c.key)) (h : Ahead cfg m c ph sc.Reaching) :
    Gaze cfg m c ph sc (m.entries (sc.cursor cfg)).key where
  aligned := ha
  unused _ ht hph := ht (hv.reusing _ hph).2
  key _ _ := .inl rfl
  saw he ht := hsaw _ ⟨live_of_ne he ht, sc.cursor cfg, rfl⟩
  ahead := by
    intro hall
    obtain ⟨n, hanch, hle, hlt⟩ := h hall
    refine ⟨n, hanch, ?_, ⟨hle, hlt⟩, fun hn => ?_⟩
    · rw [ha.word_eq]
      rcases Nat.lt_or_eq_of_le hle with hbefore | hhere
      · exact (hanch.reached hv).2.2 sc.n hbefore
      · rw [hhere]
        exact (ne_of_live hanch.live).1
    · have hword : m.entries (sc.cursor cfg) = m.word cfg (cfg.hashOf c.key) n := by
        rw [ha.word_eq, hn]
      refine ⟨?_, ?_⟩
      · rw [hword]
        exact (ne_of_live hanch.live).2
      · change cfg.ident (m.entries (sc.cursor cfg)) = cfg.ident c.key
        rw [hword]
        exact hanch.ident

theorem Candidate.hit_iff {x e : Entry} (h : Candidate cfg x e) (hlive : e.live = true) :
    cfg.hit (cfg.hashOf x) x e = true ↔
      e.key = cfg.keyArg x ∨
        cfg.memcmp (cfg.entryKey e) (cfg.keyArg x) (cfg.lengthArg x).toNat := by
  rw [Config.hit, hlive, Bool.true_and, Config.keyMatch, h.mode, h.length, h.memo]
  simp

theorem Answers.of_hit {e : Entry} (hsaw : c.Saw e)
    (hit : cfg.hit (cfg.hashOf c.key) c.key e = true) :
    Answers cfg c ((some e).bind Entry.nonempty) := by
  have he : (some e).bind Entry.nonempty = some e := if_neg (ne_of_live (hit_live hit)).1
  rw [he]
  refine ⟨fun e' h => ?_, nofun⟩
  cases h
  exact ⟨hsaw, hit⟩

/-- The lookup has all four words of the slot. -/
theorem Knows.judge {d : Nat} {e : Entry} (hcov : cfg.Covered) (hv : m.Valid cfg ph)
    (hlived : c.Lived cfg) (hd : d = sc.d) (hg : Gaze cfg m c ph sc e.key)
    (hsnap : e.key ≠ keyEmpty → e.key ≠ keyTombstone → sc.glimpse cfg m e.key = e) :
    Knows cfg m c ph (sc.judge cfg m c.key d e) := by
  unfold Scan.judge
  split
  · rename_i ht
    exact .continue hv hg.aligned (hg.ahead.imp fun n hn => ⟨hn.2.1, fun h => (hn.2.2 h).1 ht⟩)
  · rename_i ht
    split
    · rename_i he
      refine ⟨fun e' h => ?_, fun hall => ?_⟩
      · rw [Option.bind_some, Entry.nonempty, if_pos he] at h
        cases h
      · obtain ⟨n, -, hne, -⟩ := hg.ahead hall
        exact absurd he hne
    · rename_i he
      have hsaw := hg.saw he ht
      have hahead := hg.ahead
      rw [hsnap he ht] at hsaw hahead
      obtain ⟨hlive, hsound⟩ := hsaw.proper hlived
      split
      · rename_i hkey
        refine .of_hit hsaw ?_
        rw [Config.hit, hlive, Bool.true_and, Config.keyMatch, Bool.or_eq_true]
        exact .inl (beq_iff_eq.mpr hkey)
      · rename_i hkey
        split
        · rename_i hcand
          refine ⟨hd, hg.aligned, hsaw, ⟨hcand.1, hcand.2.1, hcand.2.2⟩, ?_⟩
          exact hahead.imp fun n hn => ⟨hn.2.1, fun h => (hn.2.2 h).2⟩
        · rename_i hcand
          refine .continue hv hg.aligned (hahead.imp fun n hn => ⟨hn.2.1, fun h => hcand ?_⟩)
          -- the key itself would have passed the tests
          have hit := (Config.hit_iff hcov hsound).mpr ⟨hlive, .inl (hn.2.2 h).2⟩
          rw [Config.hit, Config.keyMatch] at hit
          simp only [Bool.and_eq_true, Bool.or_eq_true, beq_iff_eq] at hit
          obtain ⟨hmode, hlen, hmemo, -⟩ := hit.2.resolve_left hkey
          exact ⟨hmode, hlen, hmemo⟩

/-- The lookup compares the bytes of a candidate. -/
theorem Knows.compare {d : Nat} {e : Entry} (hcov : cfg.Covered) (hv : m.Valid cfg ph)
    (hlived : c.Lived cfg) (h : Knows cfg m c ph (.recheck sc d e)) :
    Knows cfg m c ph
      (if cfg.memcmp (cfg.entryKey e) (cfg.keyArg c.key) (cfg.lengthArg c.key).toNat then
        .leave sc.map sc.d (some e)
      else sc.continue cfg m (cfg.hashOf c.key)) := by
  obtain ⟨-, hal, hsaw, hcand, hahead⟩ := h
  obtain ⟨hlive, hsound⟩ := hsaw.proper hlived
  split
  · rename_i hbytes
    exact .of_hit hsaw ((hcand.hit_iff hlive).mpr (.inr hbytes))
  · rename_i hbytes
    refine .continue hv hal (hahead.imp fun n hn => ⟨hn.1, fun h => hbytes ?_⟩)
    have hit := (Config.hit_iff hcov hsound).mpr ⟨hlive, .inl (hn.2 h)⟩
    rcases (hcand.hit_iff hlive).mp hit with hkey | hcmp
    · rw [Config.entryKey, hcov hcand.mode]
      dsimp only
      rw [hkey]
      exact beq_self_eq_true _
    · exact hcmp

end Loads

section Step

variable {cfg : Config} {mem : Memory} {c : Get} {pc pc' : Pc} {map d : Nat}

/-- A lookup that goes on in its map with its counter. -/
theorem Looking.advance (h : Looking cfg mem c pc) (hmap : pc.map = some map)
    (hd : pc.counter = some d) (hmap' : pc'.map = some map) (hd' : pc'.counter = some d)
    (hknow : ∀ ph, mem.Standing cfg map ph → (mem.maps map).deletions = d →
      Knows cfg (mem.maps map) c ph pc → Knows cfg (mem.maps map) c ph pc') :
    Looking cfg mem c pc' where
  lived := h.lived
  held map' he := by
    cases hmap'.symm.trans he
    exact h.held map hmap
  fresh map' d' he he' := by
    cases hmap'.symm.trans he
    cases hd'.symm.trans he'
    obtain ⟨hlt, k, hbumps, hdel, hkn⟩ := h.fresh map d hmap hd
    refine ⟨hlt, k, hbumps, hdel, fun hk => ?_⟩
    obtain ⟨ph, hst, hold⟩ := hkn hk
    refine ⟨ph, hst, hknow ph hst ?_ hold⟩
    rw [hdel, hk, Nat.add_zero, Nat.mod_eq_of_lt hlt]
  answers result hpc := by
    rw [hpc] at hmap'
    cases hmap'

/-- One step of a lookup. -/
theorem Looking.load (hcov : cfg.Covered) (hi : mem.Inv cfg) (hnow : mem ∈ c.moments)
    (h : Looking cfg mem c pc) : Looking cfg mem c (pc.load cfg mem c.key) := by
  cases pc with
  | loadMap =>
    refine ⟨h.lived, fun map hmap => ?_, nofun, nofun⟩
    cases hmap
    exact ⟨le_rfl, fun hne => absurd rfl hne, fun hne => absurd rfl hne⟩
  | loadDeletions map =>
    have hheld := h.held map rfl
    obtain ⟨ph, hst⟩ := hi.standing map hheld.le
    have hlt := hst.valid.deletions_lt
    refine ⟨h.lived, fun map' hmap => ?_, fun map' d hmap hd => ?_, nofun⟩
    · cases hmap
      exact hheld
    · cases hmap
      cases hd
      refine ⟨hlt, 0, (h.lived mem hnow).2, ?_, fun _ => ⟨ph, hst, rfl⟩⟩
      rw [Nat.add_zero, Nat.mod_eq_of_lt hlt]
  | loadBound map d probes =>
    have hheld := h.held map rfl
    rw [Pc.load]
    split
    · refine h.advance rfl rfl rfl rfl fun ph hst _ hk => ?_
      exact .first hst.valid hk (hheld.present hst hnow) fun n hn => hn.1
    · rename_i b hb
      split
      · exact h.advance rfl rfl rfl rfl fun ph hst _ hk => hk
      · rename_i hne
        refine h.advance rfl rfl rfl rfl fun ph hst _ hk => ?_
        exact .first hst.valid hk (hheld.present hst hnow) fun n hn => hn.2 b hb hne
  | loadMaximum map d probes =>
    have hheld := h.held map rfl
    refine h.advance rfl rfl rfl rfl fun ph hst _ hk => ?_
    exact .first hst.valid hk (hheld.present hst hnow) fun n hn => hn.1
  | slot sc =>
    rw [Pc.load]
    split
    · rename_i hlt
      refine h.advance rfl rfl rfl rfl fun ph hst _ hk => ⟨nofun, fun hall _ => ?_⟩
      obtain ⟨hal, hahead⟩ := hk
      obtain ⟨n, -, hle, hbound⟩ := hahead hall
      have := hal.probes
      omega
    · exact h.advance rfl rfl rfl rfl fun ph hst hd hk => ⟨hd, hk⟩
  | loadKey sc d =>
    refine h.advance rfl rfl rfl rfl fun ph hst _ hk => ⟨hk.1, ?_⟩
    exact .of_load hst.valid (fun e he => (h.held sc.map rfl).objects_saw hst hnow he) hk.2.1
      hk.2.2
  | loadKeyLength sc d w =>
    exact h.advance rfl rfl rfl rfl fun ph hst _ hk => ⟨hk.1, hk.2, fun _ _ => rfl⟩
  | loadHash sc d w keyLength =>
    exact h.advance rfl rfl rfl rfl fun ph hst _ hk =>
      ⟨hk.1, hk.2.1, hk.2.2, fun _ _ => rfl⟩
  | loadValue sc d w keyLength hash =>
    have hpc := @Scan.judge_pc cfg (mem.maps sc.map) sc c.key d
      ⟨w, ((mem.maps sc.map).entries (sc.cursor cfg)).value, keyLength, hash⟩
    refine h.advance rfl rfl hpc.1 hpc.2 fun ph hst _ hk => ?_
    refine .judge hcov hst.valid h.lived hk.1 hk.2.1 fun he ht => ?_
    rw [hk.2.2.1 he ht, hk.2.2.2 he ht]
    rfl
  | recheck sc d e =>
    rw [Pc.load]
    split
    · rename_i hne
      refine h.advance rfl rfl rfl rfl fun ph hst hd hk => ?_
      exact absurd (hk.1.trans hd.symm) hne
    · have hpc := @Scan.continue_pc cfg (mem.maps sc.map) sc (cfg.hashOf c.key)
      refine h.advance rfl rfl ?_ ?_ fun ph hst _ hk => hk.compare hcov hst.valid h.lived
      · split
        · rfl
        · exact hpc.1
      · split
        · rfl
        · exact hpc.2
  | leave map d snapshot =>
    rw [Pc.load]
    split
    · exact ⟨h.lived, nofun, nofun, nofun⟩
    · rename_i heq
      refine ⟨h.lived, nofun, nofun, fun result hres hbrief => ?_⟩
      cases hres
      obtain ⟨hlt, k, hbumps, hdel, hkn⟩ := h.fresh map d rfl rfl
      have hk : k < 2 ^ 64 := by
        have := hbrief mem hnow
        omega
      obtain ⟨ph, -, hans⟩ := hkn (by
        rw [not_not, hdel] at heq
        omega)
      exact hans
  | done result => exact h

end Step

/-! ## Lookups beside a calm writer -/

section Consistency

variable {cfg : Config} {ι : Type} [DecidableEq ι]

theorem looking_invariant (hcov : cfg.Covered) :
    Beside.Invariant (getSpmc cfg) (Memory.Write cfg (Memory.CalmCall cfg)) (Memory.Inv cfg)
      (fun mem c => Looking cfg mem c c.pc) where
  inv hi hw := hi.write hcov hw
  invoke {mem} key hi := by
    refine ⟨fun m hm => ?_, nofun, nofun, nofun⟩
    rw [List.mem_singleton.mp hm]
    exact ⟨hi, le_rfl⟩
  write hi hw hrun hnow h := h.write hcov hi hw hrun hnow
  load hi _ hnow h := (h.load hcov hi hnow).goto
  done hdone h := h.done hdone

/-- A lookup returns the key it was asked for, unless another string at the same address was in
the table meanwhile. -/
theorem Answers.consistent {c : Get} {result : Option Entry} (hcov : cfg.Covered)
    (hlived : c.Lived cfg) (hun : c.Unaliased cfg) (h : Answers cfg c result) :
    c.Consistent cfg result := by
  refine ⟨fun e he => ?_, h.2⟩
  obtain ⟨hsaw, hit⟩ := h.1 e he
  refine ⟨hsaw, ?_⟩
  have hsound := (hsaw.proper hlived).2
  obtain ⟨m, hm, ⟨hlive, s, hs⟩, -⟩ := hsaw
  have hfits := hun m hm s (hs ▸ hlive)
  rw [hs] at hfits
  exact ((Config.hit_iff_ident hcov hsound hfits).mp hit).2

/-- Beside a writer whose calls of `ck_ht_set_spmc` neither move an entry nor give it another key
or key length word, a lookup that is not overtaken by a full turn of the deletion counter returns
one association of its key, and it returns one if its key is associated throughout the call. -/
theorem getSpmc_consistent (hpack : cfg.vmaBits = none) {entries : Nat} {ht : State}
    (hinit : init cfg entries = some ht) {s : Beside.System Memory Entry Pc ι}
    (hr : Beside.System.Reachable (getSpmc cfg) (Memory.Write cfg (Memory.CalmCall cfg))
      (Memory.start ht) s) {i : ι} {c : Get} (hc : s.calls i = some c) {result : Option Entry}
    (hdone : c.pc = .done result) (hbrief : c.Brief) (hun : c.Unaliased cfg) :
    c.Consistent cfg result := by
  have hcov : cfg.Covered := fun _ => hpack
  have h := (looking_invariant hcov).reachable hr (Memory.start_inv hinit) i c hc
  exact (h.answers result hdone hbrief).consistent hcov h.lived hun

end Consistency

/-! ## Two runs with one reader -/

section Small

variable {cfg : Config} {ok : Map → Op → Prop} {mem : Memory}
  {s : Beside.System Memory Entry Pc Unit}

/-- The writer starts a call. -/
def begins (cfg : Config) (op : Op) (s : Beside.System Memory Entry Pc Unit) :
    Beside.System Memory Entry Pc Unit :=
  match s.mem.writer with
  | none => s
  | some ht => s.write (getSpmc cfg) (s.mem.begin (step cfg { ht with stores := [] } op))

/-- The writer makes `n` stores of its call, or as many as there are. -/
def stores (cfg : Config) : Nat → Beside.System Memory Entry Pc Unit →
    Beside.System Memory Entry Pc Unit
  | 0, s => s
  | n + 1, s =>
    match s.mem.todo with
    | [] => s
    | st :: rest => stores cfg n (s.write (getSpmc cfg) (s.mem.store rest st))

theorem begins_reachable (hr : Beside.System.Reachable (getSpmc cfg) (Memory.Write cfg ok) mem s)
    (op : Op) (idle : s.mem.todo = []) (admitted : ok (s.mem.maps s.mem.current) op) :
    Beside.System.Reachable (getSpmc cfg) (Memory.Write cfg ok) mem (begins cfg op s) := by
  unfold begins
  split
  · exact hr
  · exact hr.write (.call op idle ‹_› admitted)

theorem stores_reachable (hr : Beside.System.Reachable (getSpmc cfg) (Memory.Write cfg ok) mem s)
    (n : Nat) :
    Beside.System.Reachable (getSpmc cfg) (Memory.Write cfg ok) mem (stores cfg n s) := by
  induction n generalizing s with
  | zero => exact hr
  | succ n ih =>
    unfold stores
    split
    · exact hr
    · exact ih (hr.write (.store ‹_›))

instance (c : Get) : Decidable c.Brief :=
  inferInstanceAs (Decidable (∀ mem ∈ c.moments, mem.bumps < c.start.bumps + 2 ^ 64))

theorem fits_words (m : Map) (x : Entry) : m.Fits words x := nofun

/-- The table of machine words right after `ck_ht_init`. -/
def wordsStart : State :=
  { map := Map.create words 8, allocs := 1, peak := 8, stores := [] }

/-- Two keys with one home slot have been stored, and a lookup of the first has loaded its key
from slot 0. -/
def wordsLooking : Beside.System Memory Entry Pc Unit :=
  let stored := stores words 7 (begins words (.put (wordRequest 8 7))
    (stores words 7 (begins words (.put (wordRequest 16 5)) ⟨.start wordsStart, fun _ => none⟩)))
  (stored.invoke (getSpmc words) () (words.entryOf (wordRequest 16 0))).loads (getSpmc words) () 5

/-- The first key has been removed. -/
def wordsRemoved : Beside.System Memory Entry Pc Unit :=
  stores words 2 (begins words (.remove (wordRequest 16 0)) wordsLooking)

theorem wordsRemoved_reachable (hok : ∀ m op, op.Proper words m → op.Calm words m → ok m op) :
    Beside.System.Reachable (getSpmc words) (Memory.Write words ok) (.start wordsStart)
      wordsRemoved := by
  have hvalid : ∀ {r : Request} {m : Map}, r.Valid → ∀ r', some r = some r' →
      r'.Valid ∧ m.Fits words (words.entryOf r') := by
    rintro r m hr r' ⟨⟩
    exact ⟨hr, fits_words _ _⟩
  have h₀ : Beside.System.Reachable (getSpmc words) (Memory.Write words ok) (.start wordsStart)
      (⟨.start wordsStart, fun _ => none⟩ : Beside.System Memory Entry Pc Unit) := .refl
  have h₁ := begins_reachable h₀ (.put (wordRequest 16 5)) rfl
    (hok _ _ (hvalid ⟨by decide, by decide⟩) trivial)
  have h₂ := begins_reachable (stores_reachable h₁ 7) (.put (wordRequest 8 7)) (by decide +kernel)
    (hok _ _ (hvalid ⟨by decide, by decide⟩) trivial)
  have h₃ := (stores_reachable h₂ 7).invoke () (words.entryOf (wordRequest 16 0))
    (by decide +kernel)
  have h₄ := begins_reachable (h₃.loads () 5) (.remove (wordRequest 16 0)) (by decide +kernel)
    (hok _ _ (hvalid ⟨by decide, by decide⟩) trivial)
  exact stores_reachable h₄ 2

/-- The lookup returns what was associated when it started. -/
theorem getSpmc_consistent_removed :
    ∃ (s : Beside.System Memory Entry Pc Unit) (c : Get),
      Beside.System.Reachable (getSpmc words) (Memory.Write words (Memory.CalmCall words))
        (.start wordsStart) s ∧ s.calls () = some c ∧ c.pc = .done (some ⟨16, 5, 0, 16⟩) ∧
      c.Consistent words (some ⟨16, 5, 0, 16⟩) := by
  have hr := (@wordsRemoved_reachable (Memory.CalmCall words) fun _ _ h h' => ⟨h, h'⟩).loads () 5
  obtain ⟨c, hc, hdone, hbrief⟩ : ∃ c ∈ (wordsRemoved.loads (getSpmc words) () 5).calls (),
      c.pc = .done (some ⟨16, 5, 0, 16⟩) ∧ Get.Brief c := by decide +kernel
  exact ⟨_, c, hr, hc, hdone,
    getSpmc_consistent rfl rfl hr hc hdone hbrief fun _ _ => fits_words _ _⟩

/-- The second key is then given another value, which moves it to slot 0. The writer has stored
its hash value there and not yet changed the counter when the lookup goes on: it returns the first
key with the hash value of the second. -/
theorem getSpmc_torn_by_set :
    ∃ (s : Beside.System Memory Entry Pc Unit) (c : Get) (result : Option Entry),
      init words 8 = some wordsStart ∧
      Beside.System.Reachable (getSpmc words)
        (Memory.Write words fun m op => op.Proper words m ∧ op ≠ .reset) (.start wordsStart) s ∧
      s.calls () = some c ∧ c.pc = .done result ∧ c.Brief ∧ c.Unaliased words ∧
      ¬ c.Consistent words result := by
  have h₀ := @wordsRemoved_reachable (fun m op => op.Proper words m ∧ op ≠ .reset) (by
    rintro m op hp hc
    exact ⟨hp, by rintro rfl; exact hc⟩)
  have h₁ := begins_reachable h₀ (.set (wordRequest 8 9)) (by decide +kernel) ⟨by
    rintro r ⟨⟩
    exact ⟨⟨by decide, by decide⟩, fits_words _ _⟩, nofun⟩
  have hr := (stores_reachable h₁ 2).loads () 5
  obtain ⟨c, hc, hdone, hbrief⟩ :
      ∃ c ∈ ((stores words 2 (begins words (.set (wordRequest 8 9)) wordsRemoved)).loads
        (getSpmc words) () 5).calls (), c.pc = .done (some ⟨16, 5, 0, 8⟩) ∧ Get.Brief c := by
    decide +kernel
  refine ⟨_, c, _, rfl, hr, hc, hdone, hbrief, fun _ _ => fits_words _ _, fun hcons => ?_⟩
  obtain ⟨⟨m, hm, hcur⟩, -⟩ := hcons.1 _ rfl
  have hlegal := ((Beside.reachable_moments hr (Memory.start_inv rfl).legal fun h hw =>
    h.write (fun _ _ h => h.1) (fun _ => rfl) hw).2 () c hc).2 m hm
  exact absurd (show (8 : Word) = 16 from hlegal.sound hcur) (by decide)

end Small

end ConcurrencyKit.Ht
