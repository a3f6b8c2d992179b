import ConcurrencyKit.Epoch.Grace.Model

/-!
# A record and its owner

What holds of every record between any two accesses, whoever looks at it, and what the thread that
owns the record knows of it in the middle of a call. A record that is active has stood for an
epoch since then that is not older than the one in `epoch`, and the sections that are open on it
have begun before now. Its counters are the numbers of open sections, as long as there are fewer
than `2 ^ 32` of them.
-/

namespace ConcurrencyKit.Epoch.Grace

open Threads (Invariant GuardedInvariant System)

variable {ι : Type}

/-- `now` is not before `t`. -/
def Moment.Le (t now : Moment) : Prop := t.clock ≤ now.clock ∧ t.epoch ≤ now.epoch

/-- What holds of a record at all times. -/
structure Fits (r : Record) (xs : List Section) (reached : Nat) (now : Moment)
    (registered : Prop) : Prop where
  registered : r.active ≠ 0 → registered
  active : xs ≠ [] → r.active ≠ 0
  epoch_le : r.epoch ≤ now.epoch
  reached_le : reached ≤ now.epoch
  ahead : r.active ≠ 0 → r.epoch ≤ reached
  pos : xs ≠ [] → 1 ≤ r.epoch
  begun : ∀ x ∈ xs, x.since ≤ x.begun.epoch ∧ x.begun.epoch ≤ now.epoch ∧ x.begun.clock < now.clock

/-- What the buckets of a record say of the sections that refer to them. -/
structure Sound (r : Record) (xs : List Section) : Prop where
  count : ∀ b, (r.bucket b).count = xs.countP (·.bucket = some b)
  bucket : ∀ x ∈ xs, ∀ b, x.bucket = some b →
    1 ≤ (r.bucket b).epoch ∧ (r.bucket b).epoch ≤ x.since

/-- The section that has ended and still has a reference in its bucket. -/
def Pc.closing : Pc ι → List Section
  | .delref _ x => [x]
  | _ => []

/-- The sections that are counted in `active` and not open yet. -/
def Pc.opening : Pc ι → Nat
  | .addref => 1
  | _ => 0

/-- The scan is the one of `ck_epoch_poll_deferred`. -/
def Scanner.Polls : Scanner → Prop
  | .poll _ => True
  | .synchronize .. => False

/-- What the owner of a record knows of it in the middle of a call. -/
def Known (i : ι) (r : Record) (xs : List Section) (reached : Nat) (now : Moment)
    (registered : Prop) : Pc ι → Prop
  | .beginActive _ => r.active = xs.length ∧ registered
  | .beginLoad _ => xs = [] ∧ r.active = 1
  | .beginStore _ e => xs = [] ∧ r.active = 1 ∧ reached ≤ e ∧ 1 ≤ e ∧ e ≤ now.epoch
  | .addref => r.active = xs.length + 1 ∧ 1 ≤ r.epoch
  | .endActive x => r.active = xs.length ∧ x ∈ xs
  | .delref b x => r.active = xs.length ∧ x.bucket = some b ∧ x.since ≤ x.begun.epoch ∧
      x.begun.epoch ≤ now.epoch ∧ xs.length + 1 < 2 ^ 32
  | .observeLoad => r.active = xs.length ∧ xs ≠ []
  | .observeStore e => r.active = xs.length ∧ xs ≠ [] ∧ (reached ≤ e ∧ ∀ x ∈ xs, x.since ≤ e) ∧
      1 ≤ e ∧ e ≤ now.epoch
  | .pollLoad _ => r.active = xs.length ∧ registered
  | .scanFirst k e => r.active = xs.length ∧ (k.Polls → registered) ∧ e ≤ now.epoch
  | .scanActive k e rest active => r.active = xs.length ∧
      (k.Polls → active = true ∨ i ∈ rest ∨ r.active = 0) ∧ e ≤ now.epoch
  | .scanEpoch _ e _ _ => r.active = xs.length ∧ e ≤ now.epoch
  | .pollStore _ e => r.active = xs.length ∧ r.active = 0 ∧ e ≤ now.epoch
  | .synchronizeReload _ _ _ delta _ _ => r.active = xs.length ∧ delta ≤ now.epoch
  | _ => r.active = xs.length

/-- The record of a thread and what the thread knows of it. -/
structure Own (i : ι) (r : Record) (xs : List Section) (reached : Nat) (now : Moment)
    (registered : Prop) (pc : Pc ι) : Prop where
  fits : Fits r xs reached now registered
  sound : Sound r (pc.closing ++ xs)
  known : Known i r xs reached now registered pc

/-- What holds of the records at all times. -/
structure Inv (m : Mem ι) : Prop where
  pos : 1 ≤ m.epoch
  fits : ∀ j, Fits (m.record j) (m.sections j) (m.reached j) m.now (j ∈ m.records)

/-- The record of thread `i`, and where its owner stands. -/
def At (i : ι) (m : Mem ι) (t : Thread ι) : Prop :=
  Own i (m.record i) (m.sections i) (m.reached i) m.now (i ∈ m.records) t.pc

/-- Fewer than `2 ^ 32` sections are open on the record of thread `i`, and there have been fewer
than `2 ^ 32` ticks. -/
def Few (i : ι) (m : Mem ι) (t : Thread ι) : Prop :=
  (m.sections i).length + t.pc.opening < 2 ^ 32 ∧ m.epoch ≤ 2 ^ 32

instance (i : ι) (m : Mem ι) (t : Thread ι) : Decidable (Few i m t) :=
  inferInstanceAs (Decidable (_ ∧ _))

/-- What the threads that do not make a step can rely on. -/
structure Change (i : ι) (m m' : Mem ι) : Prop where
  now : m.now.Le m'.now
  records : m.records ⊆ m'.records
  record : ∀ j ≠ i, m'.record j = m.record j
  sections : ∀ j ≠ i, m'.sections j = m.sections j
  reached : ∀ j ≠ i, m'.reached j = m.reached j
  fresh : ∀ x ∈ m'.sections i, x ∈ m.sections i ∨ m.clock ≤ x.begun.clock
  active : (m'.record i).active ≠ 0 →
    ((m.record i).active ≠ 0 ∧ m.reached i ≤ m'.reached i) ∨ m.epoch ≤ m'.reached i

/-! ## Single records -/

theorem Moment.Le.refl (t : Moment) : t.Le t := ⟨le_rfl, le_rfl⟩

theorem Moment.Le.trans {a b c : Moment} (h : a.Le b) (h' : b.Le c) : a.Le c :=
  ⟨h.1.trans h'.1, h.2.trans h'.2⟩

section Record

variable {i : ι} {r r' : Record} {xs : List Section} {reached e : Nat} {now now' : Moment}
  {reg reg' : Prop} {pc : Pc ι} {b : Fin 2} {x : Section} {object : Bool}

theorem Fits.mono (h : Fits r xs reached now reg) (hnow : now.Le now') (hreg : reg → reg') :
    Fits r xs reached now' reg' where
  registered ha := hreg (h.registered ha)
  active := h.active
  epoch_le := h.epoch_le.trans hnow.2
  reached_le := h.reached_le.trans hnow.2
  ahead := h.ahead
  pos := h.pos
  begun x hx := by
    obtain ⟨hs, he, hc⟩ := h.begun x hx
    exact ⟨hs, he.trans hnow.2, hc.trans_le hnow.1⟩

theorem Known.mono (h : Known i r xs reached now reg pc) (hnow : now.Le now')
    (hreg : reg → reg') : Known i r xs reached now' reg' pc := by
  cases pc with
  | beginActive object => exact ⟨h.1, hreg h.2⟩
  | beginStore object e => exact ⟨h.1, h.2.1, h.2.2.1, h.2.2.2.1, h.2.2.2.2.trans hnow.2⟩
  | delref b x => exact ⟨h.1, h.2.1, h.2.2.1, h.2.2.2.1.trans hnow.2, h.2.2.2.2⟩
  | observeStore e => exact ⟨h.1, h.2.1, h.2.2.1, h.2.2.2.1, h.2.2.2.2.trans hnow.2⟩
  | pollLoad deferred => exact ⟨h.1, hreg h.2⟩
  | scanFirst k e => exact ⟨h.1, fun hk => hreg (h.2.1 hk), h.2.2.trans hnow.2⟩
  | scanActive k e rest active => exact ⟨h.1, h.2.1, h.2.2.trans hnow.2⟩
  | scanEpoch k e cr rest => exact ⟨h.1, h.2.trans hnow.2⟩
  | pollStore deferred e => exact ⟨h.1, h.2.1, h.2.2.trans hnow.2⟩
  | synchronizeReload barrier called n delta cr rest => exact ⟨h.1, h.2.trans hnow.2⟩
  | _ => exact h

theorem Own.mono (h : Own i r xs reached now reg pc) (hnow : now.Le now') (hreg : reg → reg') :
    Own i r xs reached now' reg' pc :=
  ⟨h.fits.mono hnow hreg, h.sound, h.known.mono hnow hreg⟩

theorem Sound.active (h : Sound r xs) (n : Nat) : Sound { r with active := n } xs :=
  ⟨h.count, h.bucket⟩

theorem Sound.epoch (h : Sound r xs) (e : Nat) : Sound { r with epoch := e } xs :=
  ⟨h.count, h.bucket⟩

/-- The sections of a bucket that is not in use. -/
theorem Sound.not_mem (h : Sound r xs) (hb : (r.bucket b).count = 0) :
    ∀ x ∈ xs, x.bucket ≠ some b := by
  rw [h.count, List.countP_eq_zero] at hb
  simpa using hb

theorem Sound.exists_mem (h : Sound r xs) (hb : 0 < (r.bucket b).count) :
    ∃ x ∈ xs, x.bucket = some b := by
  rw [h.count, List.countP_pos_iff] at hb
  simpa using hb

theorem Sound.count_le (h : Sound r xs) (b : Fin 2) : (r.bucket b).count ≤ xs.length := by
  rw [h.count]
  exact List.countP_le_length

/-- A section without an object begins. -/
theorem Sound.push (h : Sound r xs) (hx : x.bucket = none) : Sound r (x :: xs) where
  count b := by
    rw [List.countP_cons_of_neg (by simp [hx])]
    exact h.count b
  bucket := by
    intro y hy b hb
    rcases List.mem_cons.mp hy with rfl | hy
    · rw [hx] at hb
      cases hb
    · exact h.bucket y hy b hb

/-- A section with an object begins. -/
theorem Sound.addref (h : Sound r xs) (few : xs.length + 1 < 2 ^ 32) (hpos : 1 ≤ e)
    (hle : ∀ x ∈ xs, x.since ≤ e) (c : Moment) :
    Sound (r.addref e) (⟨some (sense e), e, c⟩ :: xs) where
  count b := by
    by_cases hb : b = sense e
    · subst hb
      have hlt := (h.count_le (sense e)).trans_lt (Nat.lt_of_succ_lt few)
      rw [List.countP_cons_of_pos (by simp), Record.addref_bucket_self]
      have hinc : inc 32 (r.bucket (sense e)).count = (r.bucket (sense e)).count + 1 := by
        have := h.count_le (sense e)
        exact Nat.mod_eq_of_lt (by omega)
      dsimp only
      rw [hinc, h.count]
    · rw [List.countP_cons_of_neg (by simpa using fun he => hb he.symm),
        Record.addref_bucket_of_ne hb, h.count]
  bucket := by
    intro x hx b hb
    by_cases hne : b = sense e
    · subst hne
      rw [Record.addref_bucket_self]
      dsimp only
      by_cases hz : (r.bucket (sense e)).count = 0
      · rw [if_pos hz]
        rcases List.mem_cons.mp hx with rfl | hx
        · exact ⟨hpos, le_rfl⟩
        · exact absurd hb (h.not_mem hz x hx)
      · rw [if_neg hz]
        rcases List.mem_cons.mp hx with rfl | hx
        · obtain ⟨y, hy, hyb⟩ := h.exists_mem (Nat.pos_of_ne_zero hz)
          obtain ⟨h1, h2⟩ := h.bucket y hy _ hyb
          exact ⟨h1, h2.trans (hle y hy)⟩
        · exact h.bucket x hx _ hb
    · have hx : x ∈ xs := by
        rcases List.mem_cons.mp hx with rfl | hx
        · cases hb
          exact absurd rfl hne
        · exact hx
      rw [Record.addref_bucket_of_ne hne]
      exact h.bucket x hx b hb

/-- Sections may be listed in any order. -/
theorem Sound.perm {ys : List Section} (h : Sound r xs) (hp : xs.Perm ys) : Sound r ys where
  count b := by rw [h.count, hp.countP_eq]
  bucket x hx := h.bucket x (hp.mem_iff.mpr hx)

/-- A section without an object ends. -/
theorem Sound.erase (h : Sound r xs) (hx : x.bucket = none) : Sound r (xs.erase x) where
  count b := by
    rw [List.countP_erase, hx, h.count]
    simp
  bucket y hy := h.bucket y (List.mem_of_mem_erase hy)

/-- The bucket of a section that has ended gives up a reference. -/
theorem Sound.drop (h : Sound r (x :: xs)) (few : xs.length + 1 < 2 ^ 32)
    (hx : x.bucket = some b) : Sound (r.drop b) xs where
  count c := by
    by_cases hc : c = b
    · subst hc
      have hcount := h.count c
      have hle : xs.countP (fun y => decide (y.bucket = some c)) ≤ xs.length :=
        List.countP_le_length
      rw [List.countP_cons_of_pos (by simpa using hx)] at hcount
      rw [Record.drop_bucket_self, hcount]
      exact (dec_of_pos (by omega) (by omega)).trans (Nat.add_sub_cancel _ _)
    · have hcount := h.count c
      rw [List.countP_cons_of_neg (by simpa [hx] using fun he => hc he.symm)] at hcount
      rw [Record.drop_bucket_of_ne hc, hcount]
  bucket y hy c hc := by
    have he : ((r.drop b).bucket c).epoch = (r.bucket c).epoch := by
      by_cases hcb : c = b
      · subst hcb
        rw [Record.drop_bucket_self]
      · rw [Record.drop_bucket_of_ne hcb]
    rw [he]
    exact h.bucket y (List.mem_cons_of_mem x hy) c hc

theorem Sound.delref (h : Sound r (x :: xs)) (few : xs.length + 1 < 2 ^ 32)
    (hx : x.bucket = some b) : Sound (r.delref b) xs := by
  unfold Record.delref
  split
  · exact (h.drop few hx).epoch _
  · exact h.drop few hx

theorem succ_ne : ∀ b : Fin 2, b + 1 ≠ b := by decide

/-- Where `_ck_epoch_delref` leaves the epoch of the record. -/
theorem Sound.delref_epoch (h : Sound r (x :: xs)) (few : xs.length + 1 < 2 ^ 32)
    (hx : x.bucket = some b) :
    (r.delref b).epoch = r.epoch ∨
      (∃ y ∈ xs, y.bucket = some (b + 1)) ∧ (∀ y ∈ xs, y.bucket ≠ some b) ∧
        (r.delref b).epoch = (r.bucket (b + 1)).epoch ∧ (r.drop b).Moves b := by
  unfold Record.delref
  split
  · rename_i hm
    have hne : b + 1 ≠ b := succ_ne b
    refine .inr ⟨(h.drop few hx).exists_mem hm.2.1, (h.drop few hx).not_mem hm.1, ?_, hm⟩
    dsimp only
    rw [Record.drop_bucket_of_ne hne]
  · exact .inl rfl

/-- Sections are renewed. -/
theorem Sound.renew (h : Sound r xs) (c : Moment) :
    Sound r (xs.map fun x => { x with begun := c }) where
  count b := by
    rw [List.countP_map]
    exact h.count b
  bucket := by
    intro x hx b hb
    obtain ⟨y, hy, rfl⟩ := List.mem_map.mp hx
    exact h.bucket y hy b hb

/-- A section begins on an active record. -/
theorem Fits.push (h : Fits r xs reached now reg) (ha : r.active ≠ 0) (hr : 1 ≤ r.epoch)
    (he : e ≤ now.epoch) (bucket : Option (Fin 2)) :
    Fits r (⟨bucket, e, ⟨now.clock, e⟩⟩ :: xs) reached ⟨now.clock + 1, now.epoch⟩ reg where
  registered := h.registered
  active _ := ha
  epoch_le := h.epoch_le
  reached_le := h.reached_le
  ahead := h.ahead
  pos _ := hr
  begun := by
    intro x hx
    rcases List.mem_cons.mp hx with rfl | hx
    · exact ⟨le_rfl, he, Nat.lt_succ_self _⟩
    · obtain ⟨hs, hle, hc⟩ := h.begun x hx
      exact ⟨hs, hle, Nat.lt_succ_of_lt hc⟩

/-- The owner stores to the epoch of its record. -/
theorem Fits.advance (h : Fits r xs reached now reg) (he : e ≤ now.epoch) (hpos : 1 ≤ e) :
    Fits { r with epoch := e } xs (max reached e) now reg where
  registered := h.registered
  active := h.active
  epoch_le := he
  reached_le := max_le h.reached_le he
  ahead _ := le_max_right _ _
  pos _ := hpos
  begun := h.begun

/-- The number of open sections changes, and the record stays active. -/
theorem Fits.active_ne_zero (h : Fits r xs reached now reg) (ha : r.active ≠ 0) (n : Nat) :
    Fits { r with active := n + 1 } xs reached now reg where
  registered _ := h.registered ha
  active _ := Nat.succ_ne_zero n
  epoch_le := h.epoch_le
  reached_le := h.reached_le
  ahead _ := h.ahead ha
  pos := h.pos
  begun := h.begun

theorem nil_of_active (h : r.active = xs.length) (hz : r.active = 0) : xs = [] :=
  List.eq_nil_of_length_eq_zero (h.symm.trans hz)

theorem inc_eq {n : Nat} (h : n + 1 < 2 ^ 32) : inc 32 n = n + 1 := Nat.mod_eq_of_lt h

/-! ## The owner of a record -/

theorem Own.activate (h : Own i r xs reached now reg (.beginActive object)) (hz : r.active = 0) :
    Own i { r with active := 1 } xs now.epoch now reg (.beginLoad object) := by
  obtain ⟨hf, hs, ha, hreg⟩ := h
  obtain rfl := nil_of_active ha hz
  refine ⟨⟨fun _ => hreg, fun hne => absurd rfl hne, hf.epoch_le, le_rfl, fun _ => hf.epoch_le,
    fun hne => absurd rfl hne, nofun⟩, hs.active 1, rfl, rfl⟩

theorem Own.nest (h : Own i r xs reached now reg (.beginActive object)) (hz : r.active ≠ 0)
    (few : xs.length + 1 < 2 ^ 32) :
    Own i { r with active := inc 32 r.active } xs reached now reg .addref := by
  obtain ⟨hf, hs, ha, hreg⟩ := h
  have hne : xs ≠ [] := by
    rintro rfl
    exact hz ha
  rw [ha, inc_eq few]
  exact ⟨hf.active_ne_zero hz _, hs.active _, rfl, hf.pos hne⟩

theorem Own.nest_plain (h : Own i r xs reached now reg (.beginActive object)) (hz : r.active ≠ 0)
    (few : xs.length + 1 < 2 ^ 32) (result : Option Bool) :
    Own i { r with active := inc 32 r.active } (⟨none, now.epoch, ⟨now.clock, now.epoch⟩⟩ :: xs)
      reached ⟨now.clock + 1, now.epoch⟩ reg (.client result) := by
  obtain ⟨hf, hs, ha, hpos⟩ := h.nest hz few
  have hne : inc 32 r.active ≠ 0 := by
    have hinc : inc 32 r.active = xs.length + 1 := ha
    rw [hinc]
    exact Nat.succ_ne_zero _
  exact ⟨hf.push hne hpos le_rfl none, hs.push rfl, ha⟩

theorem Own.load (h : Own i r xs reached now reg (.beginLoad object)) (hpos : 1 ≤ now.epoch) :
    Own i r xs reached now reg (.beginStore object now.epoch) := by
  obtain ⟨hf, hs, hxs, ha⟩ := h
  exact ⟨hf, hs, hxs, ha, hf.reached_le, hpos, le_rfl⟩

theorem Own.store (h : Own i r xs reached now reg (.beginStore object e)) :
    Own i { r with epoch := e } xs (max reached e) now reg .addref := by
  obtain ⟨hf, hs, hxs, ha, -, hpos, he⟩ := h
  refine ⟨hf.advance he hpos, hs.epoch e, ?_, hpos⟩
  rw [hxs]
  exact ha

theorem Own.store_plain (h : Own i r xs reached now reg (.beginStore object e))
    (result : Option Bool) :
    Own i { r with epoch := e } (⟨none, e, ⟨now.clock, e⟩⟩ :: xs) (max reached e)
      ⟨now.clock + 1, now.epoch⟩ reg (.client result) := by
  obtain ⟨hf, hs, ha, hpos⟩ := h.store
  have he : e ≤ now.epoch := h.known.2.2.2.2
  have hne : r.active ≠ 0 := by
    rw [h.known.2.1]
    exact Nat.one_ne_zero
  exact ⟨hf.push hne hpos he none, hs.push rfl, ha⟩

theorem Own.addref (h : Own i r xs reached now reg .addref) (few : xs.length + 1 < 2 ^ 32)
    (hnow : 1 ≤ now.epoch) (result : Option Bool) :
    Own i (r.addref now.epoch)
      (⟨some (sense now.epoch), now.epoch, ⟨now.clock, now.epoch⟩⟩ :: xs) reached
      ⟨now.clock + 1, now.epoch⟩ reg (.client result) := by
  obtain ⟨hf, hs, ha, hpos⟩ := h
  have hne : r.active ≠ 0 := by
    rw [ha]
    exact Nat.succ_ne_zero _
  have hle : ∀ x ∈ xs, x.since ≤ now.epoch := fun x hx =>
    (hf.begun x hx).1.trans (hf.begun x hx).2.1
  have hfits := hf.push hne hpos le_rfl (some (sense now.epoch))
  exact ⟨⟨hfits.registered, hfits.active, hfits.epoch_le, hfits.reached_le, hfits.ahead, hfits.pos,
    hfits.begun⟩, hs.addref few hnow hle _, ha⟩

/-- `active` is decreased. -/
theorem Fits.ended (h : Fits r xs reached now reg) (ha : r.active = xs.length) (hx : x ∈ xs)
    (few : xs.length < 2 ^ 32) : dec 32 r.active = (xs.erase x).length ∧
      Fits { r with active := dec 32 r.active } (xs.erase x) reached now reg := by
  have hpos : 0 < xs.length := List.length_pos_of_mem hx
  have hdec : dec 32 r.active = (xs.erase x).length := by
    rw [List.length_erase_of_mem hx, ha, dec_of_pos hpos few.le]
  have hne : r.active ≠ 0 := by
    rw [ha]
    exact hpos.ne'
  refine ⟨hdec, fun _ => h.registered hne, fun h0 => ?_, h.epoch_le, h.reached_le,
    fun _ => h.ahead hne, fun _ => h.pos (List.ne_nil_of_mem hx), fun y hy =>
      h.begun y (List.mem_of_mem_erase hy)⟩
  dsimp only
  rw [hdec]
  exact (List.length_pos_of_ne_nil h0).ne'

theorem Own.end_plain (h : Own i r xs reached now reg (.endActive x)) (few : xs.length < 2 ^ 32)
    (hx : x.bucket = none) (result : Option Bool) :
    Own i { r with active := dec 32 r.active } (xs.erase x) reached now reg (.client result) := by
  obtain ⟨hf, hs, ha, hmem⟩ := h
  obtain ⟨hdec, hfits⟩ := hf.ended ha hmem few
  exact ⟨hfits, (hs.erase hx).active _, hdec⟩

theorem Own.end_object (h : Own i r xs reached now reg (.endActive x)) (few : xs.length < 2 ^ 32)
    (hx : x.bucket = some b) :
    Own i { r with active := dec 32 r.active } (xs.erase x) reached now reg (.delref b x) := by
  obtain ⟨hf, hs, ha, hmem⟩ := h
  obtain ⟨hdec, hfits⟩ := hf.ended ha hmem few
  obtain ⟨hs1, he, hc⟩ := hf.begun x hmem
  refine ⟨hfits, (Sound.perm hs (List.perm_cons_erase hmem)).active _, hdec, hx, hs1, he, ?_⟩
  rw [List.length_erase_of_mem hmem]
  have hpos : 0 < xs.length := List.length_pos_of_mem hmem
  omega

theorem Own.delref (h : Own i r xs reached now reg (.delref b x)) (result : Option Bool) :
    Own i (r.delref b) xs (max reached (r.delref b).epoch) now reg (.client result) := by
  obtain ⟨hf, hs, ha, hx, -, hnow, few⟩ := h
  have hactive := Record.delref_active b r
  have hle : (r.delref b).epoch ≤ now.epoch ∧ (xs ≠ [] → 1 ≤ (r.delref b).epoch) := by
    rcases hs.delref_epoch few hx with he | ⟨⟨y, hy, hyb⟩, -, he, -⟩
    · rw [he]
      exact ⟨hf.epoch_le, hf.pos⟩
    · obtain ⟨h1, h2⟩ := hs.bucket y (List.mem_cons_of_mem x hy) _ hyb
      obtain ⟨h3, h4, -⟩ := hf.begun y hy
      rw [he]
      exact ⟨h2.trans (h3.trans h4), fun _ => h1⟩
  refine ⟨⟨?_, ?_, hle.1, max_le hf.reached_le hle.1, fun _ => le_max_right _ _, hle.2, hf.begun⟩,
    hs.delref few hx, ?_⟩
  · rw [hactive]
    exact hf.registered
  · rw [hactive]
    exact hf.active
  · show (r.delref b).active = xs.length
    rw [hactive]
    exact ha

theorem Own.observe (h : Own i r xs reached now reg (.observeStore e)) (result : Option Bool) :
    Own i { r with epoch := e } (xs.map fun x => { x with begun := ⟨now.clock, e⟩ })
      (max reached e) ⟨now.clock + 1, now.epoch⟩ reg (.client result) := by
  obtain ⟨hf, hs, ha, hne, ⟨-, hsince⟩, hpos, he⟩ := h
  refine ⟨⟨hf.registered, fun _ => hf.active hne, he, max_le hf.reached_le he,
    fun _ => le_max_right _ _, fun _ => hpos, ?_⟩, (Sound.renew hs _).epoch e, ?_⟩
  · intro x hx
    obtain ⟨y, hy, rfl⟩ := List.mem_map.mp hx
    exact ⟨hsince y hy, he, Nat.lt_succ_self _⟩
  · show r.active = (xs.map _).length
    rw [List.length_map]
    exact ha

/-- The scan looks at the record of the thread that scans. -/
theorem Known.scan {k : Scanner} {cr : ι} {rest : List ι} {active : Bool}
    (h : Known i r xs reached now reg (.scanActive k e (cr :: rest) active))
    (hz : cr = i → r.active = 0) :
    Known i r xs reached now reg (.scanActive k e rest active) := by
  refine ⟨h.1, fun hk => ?_, h.2.2⟩
  rcases h.2.1 hk with hact | hmem | h0
  · exact .inl hact
  · rcases List.mem_cons.mp hmem with hi | hmem
    · exact .inr (.inr (hz hi.symm))
    · exact .inr (.inl hmem)
  · exact .inr (.inr h0)

/-- `ck_epoch_poll_deferred` stores to the epoch of a record that is not active. -/
theorem Own.poll_store {deferred : Bool} {caller : Caller}
    (h : Own i r xs reached now reg (.pollStore deferred e)) :
    Own i { r with epoch := e } xs (max reached e) now reg (.dispatch caller) := by
  obtain ⟨hf, hs, ha, hz, he⟩ := h
  obtain rfl := nil_of_active ha hz
  exact ⟨⟨fun hne => absurd hz hne, fun hne => absurd rfl hne, he, max_le hf.reached_le he,
    fun hne => absurd hz hne, fun hne => absurd rfl hne, nofun⟩, hs.epoch e, ha⟩

end Record

section Steps

variable [DecidableEq ι] {i : ι} {m m' : Mem ι} {t t' : Thread ι}

/-! ## What the other threads see -/

omit [DecidableEq ι] in
theorem Change.of_eq (hnow : m.now.Le m'.now) (hregistered : m'.records = m.records)
    (hrecord : m'.record = m.record) (hsections : m'.sections = m.sections)
    (hreached : m'.reached = m.reached) : Change i m m' where
  now := hnow
  records := hregistered ▸ fun _ h => h
  record _ _ := hrecord ▸ rfl
  sections _ _ := hsections ▸ rfl
  reached _ _ := hreached ▸ rfl
  fresh _ hx := .inl (hsections ▸ hx)
  active ha := .inl ⟨hrecord ▸ ha, (congrFun hreached i).ge⟩

theorem Change.update {r : Record} {xs : List Section} {e : Nat} (hnow : m.now.Le m'.now)
    (hregistered : m.records ⊆ m'.records) (hrecord : m'.record = Function.update m.record i r)
    (hsections : m'.sections = Function.update m.sections i xs)
    (hreached : m'.reached = Function.update m.reached i e)
    (hfresh : ∀ x ∈ xs, x ∈ m.sections i ∨ m.clock ≤ x.begun.clock)
    (hactive : r.active ≠ 0 →
      ((m.record i).active ≠ 0 ∧ m.reached i ≤ e) ∨ m.epoch ≤ e) : Change i m m' where
  now := hnow
  records := hregistered
  record _ hj := hrecord ▸ Function.update_of_ne hj _ _
  sections _ hj := hsections ▸ Function.update_of_ne hj _ _
  reached _ hj := hreached ▸ Function.update_of_ne hj _ _
  fresh x hx := by
    rw [hsections, Function.update_self] at hx
    exact hfresh x hx
  active ha := by
    rw [hrecord, Function.update_self] at ha
    rw [hreached, Function.update_self]
    exact hactive ha

omit [DecidableEq ι] in
theorem Change.refl : Change i m m := .of_eq (.refl _) rfl rfl rfl rfl

omit [DecidableEq ι] in
theorem tick_change (e : Nat) : Change i m (m.tick e) := by
  unfold Mem.tick
  split
  · exact .of_eq ⟨le_rfl, Nat.le_succ _⟩ rfl rfl rfl rfl
  · exact .refl

omit [DecidableEq ι] in
theorem At.change {j : ι} (hc : Change i m m') (hj : j ≠ i) (h : At j m t) : At j m' t := by
  unfold At
  rw [hc.record j hj, hc.sections j hj, hc.reached j hj]
  exact Own.mono h hc.now fun hmem => hc.records hmem

theorem empty_change (e : Nat) : Change i m (m.empty i e) := .of_eq (.refl _) rfl rfl rfl rfl

theorem enter_change : Change i m (m.enter i) := .of_eq (.refl _) rfl rfl rfl rfl

theorem leave_change : Change i m (m.leave i) := .of_eq (.refl _) rfl rfl rfl rfl

theorem Change.narrow (h : Change i m m') (epochs : List Nat) : Change i m (m'.narrow i epochs) :=
  ⟨h.now, h.records, h.record, h.sections, h.reached, h.fresh, h.active⟩

/-- An access changes nothing that the other threads rely on. -/
theorem act_change (few : Few i m t) (h : At i m t) : Change i m (m.act i t).1 := by
  obtain ⟨frames, pc⟩ := t
  have hf : Fits (m.record i) (m.sections i) (m.reached i) m.now (i ∈ m.records) := h.fits
  have hself : ∀ x ∈ m.sections i, x ∈ m.sections i ∨ m.clock ≤ x.begun.clock :=
    fun x hx => .inl hx
  have hpush : ∀ (b : Option (Fin 2)) (e : Nat),
      ∀ x ∈ (⟨b, e, ⟨m.clock, e⟩⟩ :: m.sections i : List Section),
        x ∈ m.sections i ∨ m.clock ≤ x.begun.clock := by
    intro b e x hx
    rcases List.mem_cons.mp hx with rfl | hx
    · exact .inr le_rfl
    · exact .inl hx
  have hclock : m.now.Le ⟨m.clock + 1, m.epoch⟩ := ⟨Nat.le_succ _, le_rfl⟩
  cases pc with
  | beginActive object =>
    by_cases hz : (m.record i).active = 0
    · simp only [Mem.act, if_pos hz]
      exact .update (.refl _) (fun _ h => h) rfl (Function.update_eq_self i m.sections).symm rfl
        hself fun _ => .inr le_rfl
    · cases object with
      | true =>
        simp only [Mem.act, if_neg hz, if_true]
        exact .update (.refl _) (fun _ h => h) rfl (Function.update_eq_self i m.sections).symm
          (Function.update_eq_self i m.reached).symm hself fun _ => .inl ⟨hz, le_rfl⟩
      | false =>
        simp only [Mem.act, if_neg hz, Bool.false_eq_true, if_false]
        exact .update hclock (fun _ h => h) rfl rfl
          (Function.update_eq_self i m.reached).symm (hpush _ _) fun _ => .inl ⟨hz, le_rfl⟩
  | beginStore object e =>
    have hactive : (m.record i).active ≠ 0 := by
      rw [h.known.2.1]
      exact Nat.one_ne_zero
    cases object with
    | true =>
      exact .update (.refl _) (fun _ h => h) rfl (Function.update_eq_self i m.sections).symm rfl
        hself fun _ => .inl ⟨hactive, le_max_left _ _⟩
    | false =>
      exact .update hclock (fun _ h => h) rfl rfl rfl (hpush _ _)
        fun _ => .inl ⟨hactive, le_max_left _ _⟩
  | addref =>
    have hactive : (m.record i).active ≠ 0 := by
      rw [h.known.1]
      exact Nat.succ_ne_zero _
    exact .update hclock (fun _ h => h) rfl rfl (Function.update_eq_self i m.reached).symm
      (hpush _ _) fun _ => .inl ⟨hactive, le_rfl⟩
  | endActive x =>
    have hne : (m.record i).active ≠ 0 := hf.active (List.ne_nil_of_mem h.known.2)
    have hc : Change i m ((m.set i { m.record i with
        active := dec 32 (m.record i).active }).erase i x) :=
      .update (.refl _) (fun _ h => h) rfl rfl (Function.update_eq_self i m.reached).symm
        (fun y hy => .inl (List.mem_of_mem_erase hy)) fun _ => .inl ⟨hne, le_rfl⟩
    unfold Mem.act
    dsimp only
    split
    · exact hc
    · exact hc
  | delref b x =>
    refine .update (.refl _) (fun _ h => h) rfl (Function.update_eq_self i m.sections).symm rfl
      hself fun ha => .inl ⟨?_, le_max_left _ _⟩
    rwa [Record.delref_active] at ha
  | observeStore e =>
    have hne : (m.record i).active ≠ 0 := hf.active h.known.2.1
    refine .update hclock (fun _ h => h) rfl rfl rfl ?_ fun _ => .inl ⟨hne, le_max_left _ _⟩
    intro x hx
    obtain ⟨y, -, rfl⟩ := List.mem_map.mp hx
    exact .inr le_rfl
  | pollStore deferred e =>
    exact .update (.refl _) (fun _ h => h) rfl (Function.update_eq_self i m.sections).symm rfl
      hself fun ha => absurd h.known.2.1 ha
  | pollLoad deferred => exact enter_change
  | synchronizeLoad barrier =>
    cases barrier with
    | true => exact enter_change
    | false => exact .refl
  | scanActive k e rest active =>
    cases rest with
    | nil => cases k <;> cases active <;> exact .refl
    | cons cr rest =>
      unfold Mem.act
      dsimp only
      split <;> exact .refl
  | scanEpoch k e cr rest =>
    unfold Mem.act
    dsimp only
    split
    · exact .refl
    · cases k with
      | poll deferred => exact leave_change
      | synchronize barrier called n => exact .refl
  | pollCas deferred e => exact (tick_change e).narrow _
  | synchronizeReload barrier called n delta cr rest =>
    unfold Mem.act
    dsimp only
    split
    · exact .refl
    · split <;> exact .refl
  | synchronizeCas barrier called n delta =>
    unfold Mem.act
    dsimp only
    split <;> exact tick_change delta
  | synchronized barrier called => cases barrier <;> exact .refl
  | dispatch caller =>
    obtain ⟨deferred, epochs, result⟩ := caller
    cases epochs with
    | nil => exact leave_change
    | cons e epochs => exact (empty_change e).narrow epochs
  | walk caller batch =>
    cases batch with
    | nil => exact .refl
    | cons entry batch =>
      simp only [Mem.act]
      split <;> exact .of_eq (.refl _) rfl rfl rfl rfl
  | callPush entry => exact .of_eq (.refl _) rfl rfl rfl rfl
  | strictPush r entry => exact .of_eq (.refl _) rfl rfl rfl rfl
  | client result => exact .refl
  | beginLoad object => exact .refl
  | observeLoad => exact .refl
  | callLoad => exact .refl
  | strictLoad r => exact .refl
  | scanFirst k e => exact .refl

/-! ## The thread that makes the step -/

omit [DecidableEq ι] in
/-- An access that stores neither to the record of the thread nor to the open sections. -/
theorem At.go (h : At i m t) (hnow : m.now.Le m'.now) (hregistered : m'.records = m.records)
    (hrecord : m'.record = m.record) (hsections : m'.sections = m.sections)
    (hreached : m'.reached = m.reached) (hc : t.pc.closing = t'.pc.closing)
    (hk : Known i (m.record i) (m.sections i) (m.reached i) m.now (i ∈ m.records) t.pc →
      Known i (m.record i) (m.sections i) (m.reached i) m'.now (i ∈ m.records) t'.pc) :
    At i m' t' := by
  unfold At
  rw [hrecord, hsections, hreached, hregistered]
  exact ⟨h.fits.mono hnow id, hc ▸ h.sound, hk h.known⟩

omit [DecidableEq ι] in
theorem tick_now (e : Nat) : m.now.Le (m.tick e).now := by
  unfold Mem.tick
  split
  · exact ⟨le_rfl, Nat.le_succ _⟩
  · exact .refl _

omit [DecidableEq ι] in
theorem tick_same (e : Nat) : (m.tick e).records = m.records ∧ (m.tick e).record = m.record ∧
    (m.tick e).sections = m.sections ∧ (m.tick e).reached = m.reached := by
  unfold Mem.tick
  split <;> exact ⟨rfl, rfl, rfl, rfl⟩

theorem scan_at {frames : List Frame} {k : Scanner} {e : Nat} {rest : List ι} {active : Bool}
    (h : At i m ⟨frames, .scanActive k e rest active⟩) :
    At i (m.act i ⟨frames, .scanActive k e rest active⟩).1
      (m.act i ⟨frames, .scanActive k e rest active⟩).2 := by
  cases rest with
  | nil =>
    cases k with
    | poll deferred =>
      cases active with
      | true => exact At.go h (.refl _) rfl rfl rfl rfl rfl (fun hk => hk.1)
      | false =>
        refine At.go h (.refl _) rfl rfl rfl rfl rfl (fun hk => ⟨hk.1, ?_, hk.2.2⟩)
        exact ((hk.2.1 trivial).resolve_left nofun).resolve_left List.not_mem_nil
    | synchronize barrier called n =>
      cases active with
      | true => exact At.go h (.refl _) rfl rfl rfl rfl rfl (fun hk => hk.1)
      | false => exact At.go h (.refl _) rfl rfl rfl rfl rfl (fun hk => hk.1)
  | cons cr rest =>
    by_cases hz : (m.record cr).active = 0
    · simp only [Mem.act, if_pos hz]
      exact At.go h (.refl _) rfl rfl rfl rfl rfl
        (fun hk => hk.scan fun hi => hi ▸ hz)
    · simp only [Mem.act, if_neg hz]
      exact At.go h (.refl _) rfl rfl rfl rfl rfl (fun hk => ⟨hk.1, hk.2.2⟩)

/-- One access of a thread. -/
theorem act_at (hpos : 1 ≤ m.epoch) (few : Few i m t)
    (few' : Few i (m.act i t).1 (m.act i t).2) (h : At i m t) :
    At i (m.act i t).1 (m.act i t).2 := by
  obtain ⟨frames, pc⟩ := t
  cases pc with
  | client result => exact h
  | beginActive object =>
    by_cases hz : (m.record i).active = 0
    · simp only [Mem.act, if_pos hz]
      simpa [At, Mem.activate, Mem.set, Mem.reach, Mem.now, Thread.go]
        using Own.activate h hz
    · cases object with
      | true =>
        simp only [Mem.act, if_neg hz, if_true] at few' ⊢
        simpa [At, Mem.set, Mem.now, Thread.go] using Own.nest h hz few'.1
      | false =>
        simp only [Mem.act, if_neg hz, Bool.false_eq_true, if_false] at few' ⊢
        have hlt : (m.sections i).length + 1 < 2 ^ 32 := by
          simpa [Few, Mem.push, Mem.set, Thread.go, Pc.opening] using few'.1
        simpa [At, Mem.push, Mem.set, Mem.now, Thread.go] using Own.nest_plain h hz hlt none
  | beginLoad object => exact Own.load h hpos
  | beginStore object e =>
    cases object with
    | true =>
      simpa [At, Mem.act, Mem.advance, Mem.set, Mem.reach, Mem.now, Thread.go] using Own.store h
    | false =>
      simpa [At, Mem.act, Mem.advance, Mem.push, Mem.set, Mem.reach, Mem.now, Thread.go]
        using Own.store_plain h none
  | addref =>
    simpa [At, Mem.act, Mem.push, Mem.set, Mem.now, Thread.go]
      using Own.addref h few.1 hpos none
  | endActive x =>
    have hlt : (m.sections i).length < 2 ^ 32 := few.1
    unfold Mem.act
    dsimp only
    cases hx : x.bucket with
    | none =>
      dsimp only
      simpa [At, Mem.erase, Mem.set, Mem.now, Thread.go] using Own.end_plain h hlt hx _
    | some b =>
      simpa [At, Mem.erase, Mem.set, Mem.now, Thread.go] using Own.end_object h hlt hx
  | delref b x =>
    simpa [At, Mem.act, Mem.delref, Mem.set, Mem.reach, Mem.now, Thread.go]
      using Own.delref h _
  | observeLoad =>
    refine At.go h (.refl _) rfl rfl rfl rfl rfl (fun hk => ?_)
    exact ⟨hk.1, hk.2, ⟨h.fits.reached_le, fun x hx =>
      (h.fits.begun x hx).1.trans (h.fits.begun x hx).2.1⟩, hpos, le_rfl⟩
  | observeStore e =>
    simpa [At, Mem.act, Mem.advance, Mem.renew, Mem.set, Mem.reach, Mem.now, Thread.go]
      using Own.observe h none
  | callLoad => exact At.go h (.refl _) rfl rfl rfl rfl rfl id
  | callPush entry => exact At.go h (.refl _) rfl rfl rfl rfl rfl id
  | strictLoad r => exact At.go h (.refl _) rfl rfl rfl rfl rfl id
  | strictPush r entry => exact At.go h (.refl _) rfl rfl rfl rfl rfl id
  | pollLoad deferred =>
    exact At.go h (.refl _) rfl rfl rfl rfl rfl (fun hk => ⟨hk.1, fun _ => hk.2, le_rfl⟩)
  | synchronizeLoad barrier =>
    cases barrier <;>
      exact At.go h (.refl _) rfl rfl rfl rfl rfl (fun hk => ⟨hk, nofun, le_rfl⟩)
  | scanFirst k e =>
    exact At.go h (.refl _) rfl rfl rfl rfl rfl
      (fun hk => ⟨hk.1, fun hp => .inr (.inl (hk.2.1 hp)), hk.2.2⟩)
  | scanActive k e rest active => exact scan_at h
  | scanEpoch k e cr rest =>
    unfold Mem.act
    dsimp only
    split
    · exact At.go h (.refl _) rfl rfl rfl rfl rfl (fun hk => ⟨hk.1, fun _ => .inl rfl, hk.2⟩)
       
    · cases k with
      | poll deferred =>
        exact At.go h (.refl _) rfl rfl rfl rfl rfl (fun hk => hk.1)
      | synchronize barrier called n =>
        exact At.go h (.refl _) rfl rfl rfl rfl rfl (fun hk => ⟨hk.1, hk.2⟩)
  | pollStore deferred e =>
    simpa [At, Mem.act, Mem.advance, Mem.set, Mem.reach, Mem.now, Thread.go]
      using Own.poll_store h
  | pollCas deferred e =>
    obtain ⟨h1, h2, h3, h4⟩ := tick_same (m := m) e
    exact At.go h (tick_now e) h1 h2 h3 h4 rfl id
  | synchronizeReload barrier called n delta cr rest =>
    unfold Mem.act
    dsimp only
    split
    · exact At.go h (.refl _) rfl rfl rfl rfl rfl (fun hk => ⟨hk.1, nofun, hk.2⟩)
    · split
      · exact At.go h (.refl _) rfl rfl rfl rfl rfl (fun hk => hk.1)
      · exact At.go h (.refl _) rfl rfl rfl rfl rfl (fun hk => ⟨hk.1, nofun, le_rfl⟩)
  | synchronizeCas barrier called n delta =>
    obtain ⟨h1, h2, h3, h4⟩ := tick_same (m := m) delta
    have hnow := tick_now (m := m) delta
    unfold Mem.act
    dsimp only
    split
    · exact At.go h hnow h1 h2 h3 h4 rfl fun hk => ⟨hk, nofun, le_rfl⟩
    · exact At.go h hnow h1 h2 h3 h4 rfl id
  | synchronized barrier called =>
    cases barrier <;> exact At.go h (.refl _) rfl rfl rfl rfl rfl id
  | dispatch caller =>
    obtain ⟨deferred, epochs, result⟩ := caller
    cases epochs with
    | nil => exact At.go h (.refl _) rfl rfl rfl rfl rfl id
    | cons e epochs => exact At.go h (.refl _) rfl rfl rfl rfl rfl id
  | walk caller batch =>
    cases batch with
    | nil => exact At.go h (.refl _) rfl rfl rfl rfl rfl id
    | cons entry batch =>
      simp only [Mem.act]
      split <;> exact At.go h (.refl _) rfl rfl rfl rfl rfl id

/-! ## What an access does to the record -/

/-- The thread is not in a function that begins, renews or ends a section. -/
def Pc.Neutral : Pc ι → Prop
  | .beginActive _ | .beginLoad _ | .beginStore _ _ | .addref | .endActive _ | .delref _ _
  | .observeLoad | .observeStore _ => False
  | _ => True

omit [DecidableEq ι] in
theorem Pc.Neutral.closing {pc : Pc ι} (h : pc.Neutral) : pc.closing = [] ∧ pc.opening = 0 := by
  cases pc with
  | addref => exact h.elim
  | delref b x => exact h.elim
  | _ => exact ⟨rfl, rfl⟩

/-- What an access of its owner does to a record and to the sections that are open on it. -/
inductive Touch (i : ι) (m m' : Mem ι) : Pc ι → Pc ι → Prop
  | keep {pc pc' : Pc ι} (record : m'.record i = m.record i)
      (sections : m'.sections i = m.sections i) (reached : m'.reached i = m.reached i)
      (before : pc.Neutral) (after : pc'.Neutral) : Touch i m m' pc pc'
  | activate {object : Bool} (nil : m.sections i = [])
      (record : m'.record i = { m.record i with active := 1 })
      (sections : m'.sections i = []) (reached : m'.reached i = m.epoch) :
      Touch i m m' (.beginActive object) (.beginLoad object)
  | load {object : Bool} (nil : m.sections i = []) (same : m' = m) :
      Touch i m m' (.beginLoad object) (.beginStore object m.epoch)
  | nest {n : Nat} (nonempty : m.sections i ≠ [])
      (record : m'.record i = { m.record i with active := n })
      (sections : m'.sections i = m.sections i) (reached : m'.reached i = m.reached i) :
      Touch i m m' (.beginActive true) .addref
  | nestPlain {n : Nat} (nonempty : m.sections i ≠ [])
      (record : m'.record i = { m.record i with active := n })
      (sections : m'.sections i = ⟨none, m.epoch, m.now⟩ :: m.sections i)
      (reached : m'.reached i = m.reached i) :
      Touch i m m' (.beginActive false) (.client none)
  | store {e : Nat} (nil : m.sections i = [])
      (record : m'.record i = { m.record i with epoch := e })
      (sections : m'.sections i = []) (reached : m'.reached i = e) :
      Touch i m m' (.beginStore true e) .addref
  | storePlain {e : Nat} (nil : m.sections i = [])
      (record : m'.record i = { m.record i with epoch := e })
      (sections : m'.sections i = [⟨none, e, ⟨m.clock, e⟩⟩]) (reached : m'.reached i = e) :
      Touch i m m' (.beginStore false e) (.client none)
  | addref (record : m'.record i = (m.record i).addref m.epoch)
      (sections : m'.sections i = ⟨some (sense m.epoch), m.epoch, m.now⟩ :: m.sections i)
      (reached : m'.reached i = m.reached i) : Touch i m m' .addref (.client none)
  | endPlain {x : Section} {result : Option Bool} {n : Nat} (mem : x ∈ m.sections i)
      (plain : x.bucket = none) (record : m'.record i = { m.record i with active := n })
      (sections : m'.sections i = (m.sections i).erase x) (reached : m'.reached i = m.reached i) :
      Touch i m m' (.endActive x) (.client result)
  | endObject {x : Section} {b : Fin 2} {n : Nat} (mem : x ∈ m.sections i)
      (object : x.bucket = some b) (record : m'.record i = { m.record i with active := n })
      (sections : m'.sections i = (m.sections i).erase x) (reached : m'.reached i = m.reached i) :
      Touch i m m' (.endActive x) (.delref b x)
  | delref {b : Fin 2} {x : Section} {result : Option Bool}
      (record : m'.record i = (m.record i).delref b) (sections : m'.sections i = m.sections i)
      (reached : m'.reached i = max (m.reached i) ((m.record i).delref b).epoch) :
      Touch i m m' (.delref b x) (.client result)
  | observeLoad (same : m' = m) : Touch i m m' .observeLoad (.observeStore m.epoch)
  | observe {e : Nat} (record : m'.record i = { m.record i with epoch := e })
      (sections : m'.sections i =
        (m.sections i).map fun x => { x with begun := ⟨m.clock, e⟩ })
      (reached : m'.reached i = e) : Touch i m m' (.observeStore e) (.client none)
  | pollStore {deferred : Bool} {e : Nat} {caller : Caller} (nil : m.sections i = [])
      (record : m'.record i = { m.record i with epoch := e })
      (sections : m'.sections i = []) : Touch i m m' (.pollStore deferred e) (.dispatch caller)

theorem act_touch (h : At i m t) : Touch i m (m.act i t).1 t.pc (m.act i t).2.pc := by
  obtain ⟨frames, pc⟩ := t
  cases pc with
  | beginActive object =>
    by_cases hz : (m.record i).active = 0
    · have hnil : m.sections i = [] := nil_of_active h.known.1 hz
      simp only [Mem.act, if_pos hz]
      exact .activate hnil (Function.update_self ..) hnil (Function.update_self ..)
    · have hne : m.sections i ≠ [] := by
        intro hnil
        have ha : (m.record i).active = (m.sections i).length := h.known.1
        rw [hnil] at ha
        exact hz ha
      cases object with
      | true =>
        simp only [Mem.act, if_neg hz, if_true]
        exact .nest hne (Function.update_self ..) rfl rfl
      | false =>
        simp only [Mem.act, if_neg hz, Bool.false_eq_true, if_false]
        exact .nestPlain hne (Function.update_self ..) (Function.update_self ..) rfl
  | beginStore object e =>
    obtain ⟨hnil, -, hle, -⟩ := h.known
    have hmax : max (m.reached i) e = e := max_eq_right hle
    have hreached : (m.advance i e).reached i = e := (Function.update_self ..).trans hmax
    cases object with
    | true => exact .store hnil (Function.update_self ..) hnil hreached
    | false =>
      refine .storePlain hnil (Function.update_self ..) ?_ hreached
      show Function.update m.sections i (_ :: m.sections i) i = _
      rw [Function.update_self, hnil]
      rfl
  | addref => exact .addref (Function.update_self ..) (Function.update_self ..) rfl
  | endActive x =>
    have hmem : x ∈ m.sections i := h.known.2
    unfold Mem.act
    dsimp only
    cases hx : x.bucket with
    | none => exact .endPlain hmem hx (Function.update_self ..) (Function.update_self ..) rfl
    | some b => exact .endObject hmem hx (Function.update_self ..) (Function.update_self ..) rfl
  | delref b x => exact .delref (Function.update_self ..) rfl (Function.update_self ..)
  | observeStore e =>
    have hmax : max (m.reached i) e = e := max_eq_right h.known.2.2.1.1
    refine .observe (Function.update_self ..) (Function.update_self ..) ?_
    show Function.update m.reached i (max (m.reached i) e) i = e
    rw [Function.update_self, hmax]
  | pollStore deferred e =>
    have hnil : m.sections i = [] := nil_of_active h.known.1 h.known.2.1
    exact .pollStore hnil (Function.update_self ..) hnil
  | synchronizeLoad barrier => cases barrier <;> exact .keep rfl rfl rfl trivial trivial
  | scanActive k e rest active =>
    cases rest with
    | nil => cases k <;> cases active <;> exact .keep rfl rfl rfl trivial trivial
    | cons cr rest =>
      unfold Mem.act
      dsimp only
      split <;> exact .keep rfl rfl rfl trivial trivial
  | scanEpoch k e cr rest =>
    unfold Mem.act
    dsimp only
    split
    · exact .keep rfl rfl rfl trivial trivial
    · cases k with
      | poll deferred =>
        exact .keep rfl rfl rfl trivial trivial
      | synchronize barrier called n => exact .keep rfl rfl rfl trivial trivial
  | pollCas deferred e =>
    obtain ⟨-, h2, h3, h4⟩ := tick_same (m := m) e
    exact .keep (congrFun h2 i) (congrFun h3 i) (congrFun h4 i) trivial trivial
  | synchronizeReload barrier called n delta cr rest =>
    unfold Mem.act
    dsimp only
    split
    · exact .keep rfl rfl rfl trivial trivial
    · split <;> exact .keep rfl rfl rfl trivial trivial
  | synchronizeCas barrier called n delta =>
    obtain ⟨-, h2, h3, h4⟩ := tick_same (m := m) delta
    unfold Mem.act
    dsimp only
    split <;> exact .keep (congrFun h2 i) (congrFun h3 i) (congrFun h4 i) trivial trivial
  | synchronized barrier called => cases barrier <;> exact .keep rfl rfl rfl trivial trivial
  | dispatch caller =>
    obtain ⟨deferred, epochs, result⟩ := caller
    cases epochs with
    | nil => exact .keep rfl rfl rfl trivial trivial
    | cons e epochs => exact .keep rfl rfl rfl trivial trivial
  | walk caller batch =>
    cases batch with
    | nil => exact .keep rfl rfl rfl trivial trivial
    | cons entry batch =>
      simp only [Mem.act]
      split <;> exact .keep rfl rfl rfl trivial trivial
  | client result => exact .keep rfl rfl rfl trivial trivial
  | beginLoad object => exact .load h.known.1 rfl
  | observeLoad => exact .observeLoad rfl
  | callLoad => exact .keep rfl rfl rfl trivial trivial
  | callPush entry => exact .keep rfl rfl rfl trivial trivial
  | strictLoad r => exact .keep rfl rfl rfl trivial trivial
  | strictPush r entry => exact .keep rfl rfl rfl trivial trivial
  | pollLoad deferred => exact .keep rfl rfl rfl trivial trivial
  | scanFirst k e => exact .keep rfl rfl rfl trivial trivial

omit [DecidableEq ι] in
theorem At.client (h : At i m t) (client : t.pc.Client) : Sound (m.record i) (m.sections i) ∧
    (m.record i).active = (m.sections i).length := by
  obtain ⟨frames, pc⟩ := t
  cases pc with
  | client result => exact ⟨h.sound, h.known⟩
  | _ => exact client.elim

omit [DecidableEq ι] in
/-- A record that is not registered is not active. -/
theorem Inv.unregistered (hinv : Inv m) (hi : i ∉ m.records) :
    (m.record i).active = 0 ∧ m.sections i = [] := by
  have hz : (m.record i).active = 0 := by
    by_contra hne
    exact hi ((hinv.fits i).registered hne)
  refine ⟨hz, ?_⟩
  by_contra hne
  exact (hinv.fits i).active hne hz

theorem register_change : Change i m (m.register i) := by
  refine .update (.refl _) (fun j hj => List.mem_cons_of_mem i hj) rfl
    (Function.update_eq_self i m.sections).symm (Function.update_eq_self i m.reached).symm
    (fun x hx => .inl hx) fun hne => absurd rfl hne

theorem step_change (h : Step i m t m' t') (few : Few i m t) (hat : At i m t) :
    Change i m m' := by
  cases h with
  | register new client => exact register_change
  | act running => exact act_change few hat
  | _ => exact .refl

theorem register_at (hinv : Inv m) (hi : i ∉ m.records) (client : t.pc.Client) :
    At i (m.register i) t := by
  obtain ⟨-, hnil⟩ := hinv.unregistered hi
  obtain ⟨frames, pc⟩ := t
  cases pc with
  | client result =>
    unfold At
    simp only [Mem.register, Function.update_self, hnil]
    exact ⟨⟨fun hne => absurd rfl hne, fun hne => absurd rfl hne, Nat.zero_le _,
      (hinv.fits i).reached_le, fun hne => absurd rfl hne, fun hne => absurd rfl hne, nofun⟩,
      ⟨fun _ => rfl, nofun⟩, rfl⟩
  | _ => exact client.elim

theorem step_at (h : Step i m t m' t') (few : Few i m t) (few' : Few i m' t') (hinv : Inv m)
    (hat : At i m t) : At i m' t' := by
  cases h with
  | register new client => exact register_at hinv new client
  | act running => exact act_at hinv.pos few few' hat
  | beginSection object registered client =>
    exact ⟨hat.fits, (hat.client client).1, (hat.client client).2, registered⟩
  | endSection x mem client =>
    exact ⟨hat.fits, (hat.client client).1, (hat.client client).2, mem⟩
  | observe inside client =>
    exact ⟨hat.fits, (hat.client client).1, (hat.client client).2, inside⟩
  | call registered client =>
    exact ⟨hat.fits, (hat.client client).1, (hat.client client).2⟩
  | callStrict r registered client =>
    exact ⟨hat.fits, (hat.client client).1, (hat.client client).2⟩
  | poll deferred registered client =>
    exact ⟨hat.fits, (hat.client client).1, (hat.client client).2, registered⟩
  | synchronize barrier registered client =>
    exact ⟨hat.fits, (hat.client client).1, (hat.client client).2⟩
  | leave f frames inside client =>
    exact ⟨hat.fits, (hat.client client).1, (hat.client client).2⟩

/-! ## Runs -/

theorem Inv.change (hinv : Inv m) (hc : Change i m m') (hat : At i m' t') : Inv m' where
  pos := hinv.pos.trans hc.now.2
  fits j := by
    by_cases hj : j = i
    · subst hj
      exact hat.fits
    · rw [hc.record j hj, hc.sections j hj, hc.reached j hj]
      exact (hinv.fits j).mono hc.now fun hmem => hc.records hmem

theorem invariant : GuardedInvariant (Step (ι := ι)) Few Inv At where
  own hstep few few' hinv hat := by
    have hat' := step_at hstep few few' hinv hat
    exact ⟨hinv.change (step_change hstep few hat) hat', hat'⟩
  other hstep few hinv hat := by
    intro j q hj _ hq
    exact hq.change (step_change hstep few hat) hj

theorem act_client (client : t.pc.Client) : m.act i t = (m, t) := by
  obtain ⟨frames, pc⟩ := t
  cases pc with
  | client result => rfl
  | _ => exact client.elim

/-- A thread makes `n` accesses of its call. -/
theorem acts_reachable {step : ι → Mem ι → Thread ι → Mem ι → Thread ι → Prop}
    {ok : ι → Mem ι → Thread ι → Prop} {s₀ s : System (Mem ι) (Thread ι) ι}
    (hr : System.Reachable step ok s₀ s) (i : ι) (n : Nat)
    (hact : ∀ k < n, ∀ m t, (s.acts Mem.act i k).mem = m → (s.acts Mem.act i k).pc i = t →
      ¬ t.pc.Client → step i m t (m.act i t).1 (m.act i t).2)
    (good : ∀ k < n + 1, ∀ j, ok j (s.acts Mem.act i k).mem ((s.acts Mem.act i k).pc j)) :
    System.Reachable step ok s₀ (s.acts Mem.act i n) := by
  refine System.Reachable.acts hr i n (fun k hk m t hm ht => ?_) good
  by_cases h : t.pc.Client
  · exact .inl (act_client h)
  · exact .inr (hact k hk m t hm ht h)

omit [DecidableEq ι] in
theorem init_inv : Inv (init (ι := ι)) where
  pos := le_rfl
  fits _ := ⟨fun hne => absurd rfl hne, fun hne => absurd rfl hne, Nat.zero_le _, Nat.zero_le _,
    fun hne => absurd rfl hne, fun hne => absurd rfl hne, nofun⟩

omit [DecidableEq ι] in
theorem init_at (i : ι) : At i init ⟨[], .client none⟩ :=
  ⟨init_inv.fits i, ⟨fun _ => rfl, nofun⟩, rfl⟩

omit [DecidableEq ι] in
theorem init_few (i : ι) : Few i init ⟨[], .client none⟩ :=
  ⟨Nat.two_pow_pos 32, Nat.one_le_two_pow⟩

end Steps

end ConcurrencyKit.Epoch.Grace
