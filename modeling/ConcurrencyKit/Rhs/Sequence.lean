import ConcurrencyKit.Rhs.Map
import ConcurrencyKit.Misc.Triangular

/-!
# The probe sequence

The probe sequence of a home slot reads the slots of a cache line one after the other and goes on
with another line, each time one line further away. It reads every slot of the map before it reads
one for the second time, and two home slots lead to different slots with the same number of probes;
`ck_rhs_map_probe_prev` and `ck_rhs_get_first_offset` go the way back.
-/

namespace ConcurrencyKit.Rhs

/-- The map is a power of two of whole cache lines, and the words wrap around at a multiple of
it. -/
structure Lines (line capacity : Nat) : Prop where
  pos : 0 < line
  pow : ∃ j, capacity = line * 2 ^ j
  lineWord : line ∣ 2 ^ 32
  word : capacity ∣ 2 ^ 64

theorem Lines.dvd {line capacity : Nat} (hl : Lines line capacity) : line ∣ capacity := by
  obtain ⟨j, hc⟩ := hl.pow
  exact ⟨2 ^ j, hc⟩

theorem Lines.capacity_pos {line capacity : Nat} (hl : Lines line capacity) : 0 < capacity := by
  obtain ⟨j, hc⟩ := hl.pow
  rw [hc]
  exact Nat.mul_pos hl.pos (Nat.two_pow_pos j)

/-- A subtraction modulo `c` in words of size `M`. -/
theorem add_sub_mod {c M x y : Nat} (hM : c ∣ M) (hy : y ≤ M) :
    ((x + y) % c + (M - y)) % c = x % c := by
  rw [Nat.mod_add_mod, Nat.add_assoc, Nat.add_sub_cancel' hy]
  obtain ⟨q, rfl⟩ := hM
  exact Nat.add_mul_mod_self_left x c q

/-- The slot in a place of a line of the map. -/
theorem block_mod {line n x p : Nat} (hp : p < line) :
    (x * line + p) % (line * n) = x % n * line + p := by
  have hpos : 0 < line := Nat.lt_of_le_of_lt (Nat.zero_le p) hp
  rw [Nat.mod_mul, Nat.mul_comm x line, Nat.mul_add_mod, Nat.mod_eq_of_lt hp,
    Nat.mul_add_div hpos, Nat.div_eq_of_lt hp, Nat.add_zero]
  ring

theorem block_div {line x p : Nat} (hp : p < line) : (x * line + p) / line = x := by
  have hpos : 0 < line := Nat.lt_of_le_of_lt (Nat.zero_le p) hp
  rw [Nat.mul_comm, Nat.mul_add_div hpos, Nat.div_eq_of_lt hp, Nat.add_zero]

theorem block_place {line x p : Nat} (hp : p < line) : (x * line + p) % line = p := by
  rw [Nat.mul_comm, Nat.mul_add_mod, Nat.mod_eq_of_lt hp]

section Sequence

variable {line capacity home n : Nat}

/-- The line and the place in it that probe number `n` reads. -/
theorem cursor_eq (hl : 0 < line) {j : Nat} (hc : capacity = line * 2 ^ j) (hh : home < capacity) :
    cursor line capacity home n =
      (home / line + triangle (n / line)) % 2 ^ j * line + (home + (n - n / line)) % line := by
  induction n with
  | zero =>
    have hdiv : home / line < 2 ^ j := Nat.div_lt_of_lt_mul (hc ▸ hh)
    rw [Nat.zero_div, triangle, Nat.add_zero, Nat.sub_zero, Nat.add_zero, Nat.mod_eq_of_lt hdiv]
    exact (Nat.div_add_mod' home line).symm
  | succ n ih =>
    have hplace := Nat.mod_lt (home + (n - n / line)) hl
    have hle := Nat.div_le_self n line
    rw [cursor, ih, probeNext]
    split
    · rename_i hmod
      -- the next line, which is one line further away
      have hdiv : (n + 1) / line = n / line + 1 := by
        rw [Nat.succ_div, if_pos (Nat.dvd_of_mod_eq_zero hmod)]
      have hn : n + 1 = (n / line + 1) * line := by
        rw [← hdiv, Nat.div_mul_cancel (Nat.dvd_of_mod_eq_zero hmod)]
      have hsub : n + 1 - (n / line + 1) = n - n / line := by omega
      rw [hdiv, hsub, triangle, hc, ← Nat.add_assoc (home / line)]
      generalize home / line + triangle (n / line) = a
      calc (a % 2 ^ j * line + (home + (n - n / line)) % line + (n + 1)) % (line * 2 ^ j)
          = ((a % 2 ^ j + (n / line + 1)) * line + (home + (n - n / line)) % line) %
              (line * 2 ^ j) := by
            rw [hn]
            ring_nf
        _ = (a + (n / line + 1)) % 2 ^ j * line + (home + (n - n / line)) % line := by
            rw [block_mod hplace, Nat.mod_add_mod]
    · rename_i hmod
      have hdiv : (n + 1) / line = n / line := by
        rw [Nat.succ_div, if_neg fun h => hmod (Nat.mod_eq_zero_of_dvd h), Nat.add_zero]
      have hsub : n + 1 - n / line = n - n / line + 1 := by omega
      rw [hdiv, hsub, block_div hplace, Nat.add_assoc, Nat.mul_comm _ line, Nat.mul_add_mod,
        Nat.mod_add_mod, Nat.add_assoc]

theorem div_lt_lines {j : Nat} (hc : capacity = line * 2 ^ j) (hn : n < capacity) :
    n / line < 2 ^ j :=
  Nat.div_lt_of_lt_mul (hc ▸ hn)

/-- Two numbers with the same quotient are told apart by their place in the line. -/
theorem place_inj {i j : Nat} (hl : 0 < line) (hdiv : i / line = j / line)
    (h : (home + (i - i / line)) % line = (home + (j - j / line)) % line) : i = j := by
  have hle : i / line ≤ line * (i / line) := Nat.le_mul_of_pos_left _ hl
  have hi := Nat.div_add_mod i line
  have hj := Nat.div_add_mod j line
  rw [← hdiv] at h hj
  have hplace : (home + (line * (i / line) - i / line) + i % line) % line =
      (home + (line * (i / line) - i / line) + j % line) % line := by
    convert h using 2 <;> omega
  have hmod : i % line % line = j % line % line := Nat.ModEq.add_left_cancel' _ hplace
  rw [Nat.mod_mod, Nat.mod_mod] at hmod
  rw [← hi, ← hj, hmod]

variable (hl : Lines line capacity)
include hl

/-- A slot is not read for the second time before all slots have been read. -/
theorem cursor_inj {i j : Nat} (hh : home < capacity) (hi : i < capacity) (hj : j < capacity)
    (h : cursor line capacity home i = cursor line capacity home j) : i = j := by
  obtain ⟨k, hc⟩ := hl.pow
  rw [cursor_eq hl.pos hc hh, cursor_eq hl.pos hc hh] at h
  have hpi := Nat.mod_lt (home + (i - i / line)) hl.pos
  have hpj := Nat.mod_lt (home + (j - j / line)) hl.pos
  have hlines := congrArg (· / line) h
  have hplaces := congrArg (· % line) h
  simp only [block_div hpi, block_div hpj] at hlines
  simp only [block_place hpi, block_place hpj] at hplaces
  have hdiv : i / line = j / line :=
    triangle_inj (div_lt_lines hc hi) (div_lt_lines hc hj)
      (Nat.ModEq.add_left_cancel' (home / line) hlines)
  exact place_inj hl.pos hdiv hplaces

/-- Two home slots do not lead to one slot with the same number of probes. -/
theorem cursor_home_inj {home' : Nat} (hh : home < capacity) (hh' : home' < capacity)
    (h : cursor line capacity home n = cursor line capacity home' n) : home = home' := by
  obtain ⟨k, hc⟩ := hl.pow
  rw [cursor_eq hl.pos hc hh, cursor_eq hl.pos hc hh'] at h
  have hp := Nat.mod_lt (home + (n - n / line)) hl.pos
  have hp' := Nat.mod_lt (home' + (n - n / line)) hl.pos
  have hlines := congrArg (· / line) h
  have hplaces := congrArg (· % line) h
  simp only [block_div hp, block_div hp'] at hlines
  simp only [block_place hp, block_place hp'] at hplaces
  have hdiv : home / line = home' / line :=
    (Nat.ModEq.add_right_cancel' (triangle (n / line)) hlines).eq_of_lt_of_lt
      (div_lt_lines hc hh) (div_lt_lines hc hh')
  have hmod : home % line = home' % line := Nat.ModEq.add_right_cancel' (n - n / line) hplaces
  rw [← Nat.div_add_mod home line, ← Nat.div_add_mod home' line, hdiv, hmod]

theorem cursor_lt (hh : home < capacity) (n : Nat) : cursor line capacity home n < capacity := by
  obtain ⟨k, hc⟩ := hl.pow
  rw [cursor_eq hl.pos hc hh]
  have hp := Nat.mod_lt (home + (n - n / line)) hl.pos
  have hlt := Nat.mod_lt (home / line + triangle (n / line)) (Nat.two_pow_pos k)
  generalize (home / line + triangle (n / line)) % 2 ^ k = a at hlt
  calc a * line + (home + (n - n / line)) % line < a * line + line := by omega
    _ = line * (a + 1) := by ring
    _ ≤ line * 2 ^ k := Nat.mul_le_mul_left line hlt
    _ = capacity := hc.symm

/-- Every slot is read. -/
theorem cursor_surj (hh : home < capacity) {t : Nat} (ht : t < capacity) :
    ∃ n < capacity, cursor line capacity home n = t := by
  have hsurj := Finset.surj_on_of_inj_on_of_card_le (s := Finset.range capacity)
    (t := Finset.range capacity) (fun n _ => cursor line capacity home n)
    (fun n _ => Finset.mem_range.mpr (cursor_lt hl hh n))
    (fun i j hi hj h => cursor_inj hl hh (Finset.mem_range.mp hi) (Finset.mem_range.mp hj) h)
    le_rfl t (Finset.mem_range.mpr ht)
  obtain ⟨n, hn, he⟩ := hsurj
  exact ⟨n, Finset.mem_range.mp hn, he.symm⟩

/-- Every slot is read with a given number of probes, from some home slot. -/
theorem exists_home {t : Nat} (ht : t < capacity) (n : Nat) :
    ∃ home < capacity, cursor line capacity home n = t := by
  have hsurj := Finset.surj_on_of_inj_on_of_card_le (s := Finset.range capacity)
    (t := Finset.range capacity) (fun home _ => cursor line capacity home n)
    (fun home hh => Finset.mem_range.mpr (cursor_lt hl (Finset.mem_range.mp hh) n))
    (fun i j hi hj h => cursor_home_inj hl (Finset.mem_range.mp hi) (Finset.mem_range.mp hj) h)
    le_rfl t (Finset.mem_range.mpr ht)
  obtain ⟨home, hh, he⟩ := hsurj
  exact ⟨home, Finset.mem_range.mp hh, he.symm⟩

/-- `ck_rhs_map_probe_prev` goes one step back. -/
theorem probePrev_cursor (hh : home < capacity) (hn : n + 1 ≤ 2 ^ 64) :
    probePrev line capacity (cursor line capacity home (n + 1)) (n + 1) =
      cursor line capacity home n := by
  have hlt := cursor_lt hl hh n
  rw [cursor]
  generalize cursor line capacity home n = t at hlt
  unfold probePrev probeNext
  split
  · rw [add_sub_mod hl.word hn, Nat.mod_eq_of_lt hlt]
  · have hplace := Nat.mod_lt (t + 1) hl.pos
    have hword : line ∣ 2 ^ 64 := hl.lineWord.trans (Nat.pow_dvd_pow 2 (by decide))
    rw [block_div hplace, Nat.mul_comm _ line, Nat.add_assoc (line * _), Nat.mul_add_mod,
      add_sub_mod hword (by decide)]
    exact Nat.div_add_mod t line

/-- Going back a whole line. -/
theorem cursor_back (hh : home < capacity) (hn : line ≤ n) (hword : n ≤ 2 ^ 64) :
    let offset := (cursor line capacity home n + (2 ^ 64 - n / line * line)) % capacity
    offset / line * line + (offset + (2 ^ 64 - (line - 1))) % line =
      cursor line capacity home (n - line) := by
  obtain ⟨j, hc⟩ := hl.pow
  have hpos := hl.pos
  have hword' : line ∣ 2 ^ 64 := hl.lineWord.trans (Nat.pow_dvd_pow 2 (by decide))
  have hone : 1 ≤ n / line := (Nat.one_le_div_iff hpos).mpr hn
  have hwhole : n / line * line ≤ n := Nat.div_mul_le_self n line
  have hle : n / line ≤ n / line * line := Nat.le_mul_of_pos_right _ hpos
  have hback : (n - line) / line = n / line - 1 := by
    rw [Nat.div_eq_sub_div hpos hn, Nat.add_sub_cancel]
  -- the line of `n` is `n / line` lines behind that of `n - line`
  have htriangle : home / line + triangle (n / line) =
      home / line + triangle (n / line - 1) + n / line := by
    obtain ⟨k, hk⟩ := Nat.exists_eq_add_of_le' hone
    rw [hk, Nat.add_sub_cancel, triangle, Nat.add_assoc]
  have hp := Nat.mod_lt (home + (n - n / line)) hpos
  have hoffset : (cursor line capacity home n + (2 ^ 64 - n / line * line)) % capacity =
      (home / line + triangle (n / line - 1)) % 2 ^ j * line + (home + (n - n / line)) % line := by
    rw [cursor_eq hpos hc hh, htriangle, ← block_mod hp, ← block_mod hp, ← hc, Nat.add_mul,
      Nat.add_right_comm, add_sub_mod hl.word (hwhole.trans hword)]
  have hplace : ((home + (n - n / line)) % line + (2 ^ 64 - (line - 1))) % line =
      (home + (n - line - (n / line - 1))) % line := by
    have hline : line - 1 ≤ 2 ^ 64 := by omega
    have hsum : home + (n - n / line) = home + (n - line - (n / line - 1)) + (line - 1) := by
      have hdiv := Nat.div_le_self (n - line) line
      omega
    rw [hsum, add_sub_mod hword' hline]
  dsimp only
  rw [hoffset, block_div hp, Nat.mul_comm _ line, Nat.add_assoc (line * _), Nat.mul_add_mod, hplace,
    cursor_eq hpos hc hh, hback, Nat.mul_comm line]

/-- `ck_rhs_get_first_offset` finds the home slot. -/
theorem firstOffset_cursor (hh : home < capacity) (hn : n ≤ 2 ^ 64) :
    firstOffset line capacity (cursor line capacity home n) (n + 1) = home := by
  unfold firstOffset
  suffices h : ∀ fuel n, n < fuel → n ≤ 2 ^ 64 →
      firstOffsetLoop line capacity fuel (cursor line capacity home n) (n + 1) = home from
    h (n + 1) n (Nat.lt_succ_self n) hn
  intro fuel n hfuel hn
  induction fuel generalizing n with
  | zero => omega
  | succ fuel ih =>
    rw [firstOffsetLoop]
    split
    · rename_i hlt
      have hle : line ≤ n := Nat.le_of_lt_succ hlt
      have hback := cursor_back hl hh hle hn
      have hpos := hl.pos
      simp only [Nat.add_sub_cancel] at hback ⊢
      rw [hback]
      have hsub : n + 1 - line = n - line + 1 := by omega
      rw [hsub]
      exact ih (n - line) (by omega) (by omega)
    · rename_i hlt
      -- the home slot is in the same line
      have hn' : n < line := Nat.lt_of_succ_le (Nat.le_of_not_lt hlt)
      have hle : line ≤ 2 ^ 32 := Nat.le_of_dvd (Nat.two_pow_pos 32) hl.lineWord
      have hdec : dec 32 (n + 1) = n := dec_of_pos (Nat.succ_pos n) (by omega)
      have hword : line ∣ 2 ^ 64 := hl.lineWord.trans (Nat.pow_dvd_pow 2 (by decide))
      obtain ⟨j, hc⟩ := hl.pow
      have hp := Nat.mod_lt (home + n) hl.pos
      have hcursor : cursor line capacity home n = home / line * line + (home + n) % line := by
        rw [cursor_eq hl.pos hc hh, Nat.div_eq_of_lt hn', triangle, Nat.add_zero, Nat.sub_zero,
          Nat.mod_eq_of_lt (div_lt_lines hc hh)]
      rw [hdec, hcursor, block_div hp, Nat.mul_comm _ line, Nat.add_assoc (line * _),
        Nat.mul_add_mod, add_sub_mod hword (by omega)]
      exact Nat.div_add_mod home line

end Sequence

/-- A capacity of whole cache lines. -/
theorem Config.lines_of_le {V : Type} (cfg : Config V) {k : Nat} (hle : cfg.line ≤ 2 ^ k)
    (h64 : k ≤ 64) : Lines cfg.line (2 ^ k) := by
  obtain ⟨j, h32, hline⟩ : ∃ j ≤ 32, cfg.line = 2 ^ j := by
    unfold Config.line
    split
    · exact ⟨3, by decide, rfl⟩
    · exact ⟨2, by decide, rfl⟩
  rw [hline] at hle ⊢
  have hj : j ≤ k := (Nat.pow_le_pow_iff_right (by decide)).mp hle
  refine ⟨Nat.two_pow_pos j, ⟨k - j, ?_⟩, Nat.pow_dvd_pow 2 h32, Nat.pow_dvd_pow 2 h64⟩
  rw [← Nat.pow_add, Nat.add_sub_cancel' hj]

theorem Config.lines {V : Type} (cfg : Config V) {k : Nat} (h3 : 3 ≤ k) (h64 : k ≤ 64) :
    Lines cfg.line (2 ^ k) := by
  have hline : cfg.line ≤ 2 ^ 3 := by
    unfold Config.line
    split <;> decide
  exact cfg.lines_of_le (hline.trans (Nat.pow_le_pow_right (by decide) h3)) h64

/-! ## The way back -/

section Back

variable (line capacity : Nat)

/-- The slot that `ck_rhs_map_probe_prev` leads to from `slot` when it is applied with `n` probes,
with `n - 1` probes and so on down to one. -/
def walkBack : Nat → Nat → Nat
  | 0, slot => slot
  | n + 1, slot => walkBack n (probePrev line capacity slot (n + 1))

variable {line capacity}

theorem walkBack_cursor (hl : Lines line capacity) {home n : Nat} (hh : home < capacity)
    (hn : n ≤ 2 ^ 64) : walkBack line capacity n (cursor line capacity home n) = home := by
  induction n with
  | zero => rfl
  | succ n ih =>
    rw [walkBack, probePrev_cursor hl hh hn]
    exact ih (Nat.le_of_succ_le hn)

/-- With one probe `ck_rhs_get_first_offset` stays where it is. -/
theorem firstOffset_one (hl : Lines line capacity) (slot : Nat) :
    firstOffset line capacity slot 1 = slot := by
  have hstay : ¬line < 1 := Nat.not_lt.mpr hl.pos
  have hdec : dec 32 1 = 0 := by decide
  have hword : line ∣ 2 ^ 64 := hl.lineWord.trans (Nat.pow_dvd_pow 2 (by decide))
  rw [firstOffset, firstOffsetLoop, if_neg hstay, hdec, Nat.sub_zero, Nat.add_mod,
    Nat.mod_eq_zero_of_dvd hword, Nat.add_zero, Nat.mod_mod]
  exact Nat.div_add_mod' slot line

end Back

/-- `ck_rhs_get_first_offset`, whose argument is an `unsigned int`, and the steps of
`ck_rhs_map_probe_prev` both lead from every slot of a probe sequence back to its home slot, and
the sequence visits every slot of the map once. -/
theorem sequence_algebra {V : Type} (cfg : Config V) {k home : Nat} (hk : k < 64)
    (hline : cfg.line ≤ 2 ^ k) (hh : home < 2 ^ k) :
    (∀ p, 1 ≤ p → p ≤ 2 ^ k → p < 2 ^ 32 →
      firstOffset cfg.line (2 ^ k) (cursor cfg.line (2 ^ k) home (p - 1)) (p % 2 ^ 32) = home) ∧
    (∀ p, 1 ≤ p → p ≤ 2 ^ k →
      walkBack cfg.line (2 ^ k) (p - 1) (cursor cfg.line (2 ^ k) home (p - 1)) = home) ∧
    ∀ t < 2 ^ k, ∃! n, n < 2 ^ k ∧ cursor cfg.line (2 ^ k) home n = t := by
  have hl := cfg.lines_of_le hline hk.le
  refine ⟨?_, ?_, ?_⟩
  · intro p h1 hp hword
    have hn : p - 1 ≤ 2 ^ 64 := by omega
    have hback := firstOffset_cursor hl hh hn
    rw [Nat.sub_add_cancel h1] at hback
    rwa [Nat.mod_eq_of_lt hword]
  · intro p h1 hp
    have h64 : 2 ^ k ≤ 2 ^ 64 := Nat.pow_le_pow_right (by decide) hk.le
    exact walkBack_cursor hl hh (by omega)
  · intro t ht
    obtain ⟨n, hn, hcursor⟩ := cursor_surj hl hh ht
    refine ⟨n, ⟨hn, hcursor⟩, fun i hi => cursor_inj hl hh hi.1 hn (hi.2.trans hcursor.symm)⟩

/-- A set whose slots are read-mostly, eight to a cache line. -/
def wideLines : Config Nat where
  hf key := BitVec.ofNat 64 key
  compare := none
  vmaBits := none
  readMostly := true
  malloc _ := true
  restarts := 1

theorem sequence_algebra_wideLines :
    firstOffset 8 (2 ^ 31) (cursor 8 (2 ^ 31) 5 (2 ^ 31 - 1)) (2 ^ 31 % 2 ^ 32) = 5 ∧
      walkBack 8 (2 ^ 31) (2 ^ 31 - 1) (cursor 8 (2 ^ 31) 5 (2 ^ 31 - 1)) = 5 ∧
      ∃! n, n < 2 ^ 31 ∧ cursor 8 (2 ^ 31) 5 n = 3 := by
  have hhome : 5 < 2 ^ 31 := by decide
  have h := sequence_algebra wideLines (by decide) (by decide) hhome
  exact ⟨h.1 (2 ^ 31) (by decide) (by decide) (by decide), h.2.1 (2 ^ 31) (by decide) (by decide),
    h.2.2 3 (by decide)⟩

/-- In a map of `2 ^ 33` slots the number of probes does not fit into an `unsigned int`. -/
theorem firstOffset_truncated :
    wideLines.line ≤ 2 ^ 33 ∧
      firstOffset wideLines.line (2 ^ 33) (cursor wideLines.line (2 ^ 33) 0 (2 ^ 32 + 1 - 1))
        ((2 ^ 32 + 1) % 2 ^ 32) ≠ 0 := by
  have hline : wideLines.line ≤ 2 ^ 33 := by decide
  have hl := wideLines.lines_of_le hline (by decide)
  have hone : (2 ^ 32 + 1) % 2 ^ 32 = 1 := by decide
  refine ⟨hline, ?_⟩
  rw [hone, firstOffset_one hl, Nat.add_sub_cancel]
  intro hzero
  have hhome : 0 < 2 ^ 33 := by decide
  have heq : 2 ^ 32 = 0 := cursor_inj hl hhome (by decide) (by decide) hzero
  exact absurd heq (by decide)

end ConcurrencyKit.Rhs
