import ConcurrencyKit.Rhs.Grow
import ConcurrencyKit.Rhs.Valid

/-!
# The counters of a new map

`ck_rhs_grow` counts with `ck_rhs_wanted_inc`, which does not stop at the maximum. So a counter of a
new map is the number of entries that pass, but for multiples of `2 ^ 16`.
-/

namespace ConcurrencyKit.Rhs

variable {V : Type}

namespace Map

/-- A new map while it is filled, with an entry `hand` that has been put aside and is on its way. -/
structure Built (cfg : Config V) (m : Map V) (hand : Option Place) : Prop where
  capacity : ∃ k, 3 ≤ k ∧ k ≤ 64 ∧ m.capacity = 2 ^ k
  placed : Placed cfg.line m.capacity (m.place cfg) none
  counts : ∀ s < m.capacity, m.wanted s =
    (passing cfg.line m.capacity (m.place cfg) s +
      if through cfg.line m.capacity s hand = true then 1 else 0) % 2 ^ 16
  empty : ∀ t, m.entries t = none → m.probes t = 0
  bound : ∀ t, m.probes t ≤ m.probeMaximum

variable {cfg : Config V} {m u u' : Map V} {w : Word V} {hand : Option Place}
  {offset probes fuel : Nat}

theorem Built.lines (h : m.Built cfg hand) : Lines cfg.line m.capacity := by
  obtain ⟨k, h3, h64, hc⟩ := h.capacity
  exact hc ▸ cfg.lines h3 h64

/-- A new map has the right counters if no slot is passed `2 ^ 16` times. -/
theorem Built.valid (h : m.Built cfg none)
    (hfew : ∀ s < m.capacity, passing cfg.line m.capacity (m.place cfg) s < 2 ^ 16) :
    m.Valid cfg where
  capacity := h.capacity
  placed := h.placed
  counts s hs := by
    have hcount := h.counts s hs
    have hlt := hfew s hs
    rw [show through cfg.line m.capacity s none = false from rfl, if_neg Bool.false_ne_true,
      Nat.add_zero, Nat.mod_eq_of_lt hlt] at hcount
    rw [hcount]
    exact ⟨Nat.le_of_lt_succ hlt, fun _ => rfl⟩
  empty := h.empty
  bound := h.bound

/-- An entry that is still at its home slot has not been counted. -/
theorem Built.take (h : m.Built cfg none) (home : Nat) : m.Built cfg (some ⟨home, 1⟩) where
  capacity := h.capacity
  placed := h.placed
  counts s hs := by
    have hnot : through cfg.line m.capacity s (some ⟨home, 1⟩) = false := by
      refine Bool.eq_false_of_not_eq_true fun ht => ?_
      exact not_along_self (through_some.mp ht)
    rw [hnot]
    exact h.counts s hs
  empty := h.empty
  bound := h.bound

theorem place_file (cfg : Config V) (u : Map V) (offset probes : Nat) (w : Word V) :
    (u.file cfg (u.home (cfg.hf w.obj)) offset probes w).place cfg =
      Function.update (u.place cfg) offset (some ⟨u.home (cfg.hf w.obj), probes⟩) := by
  funext t
  by_cases ht : t = offset
  · subst ht
    simp [Map.place, file, home]
  · simp [Map.place, file, home, Function.update_of_ne ht]

/-- If there is an empty slot, the entry at hand is stored in the slot that it has come to, and the
one that was there is put aside. -/
theorem Built.file (h : u.Built cfg (some ⟨u.home (cfg.hf w.obj), probes + 1⟩))
    (hoffset : cursor cfg.line u.capacity (u.home (cfg.hf w.obj)) probes = offset)
    (hpath : ∀ k < probes,
      u.entries (cursor cfg.line u.capacity (u.home (cfg.hf w.obj)) k) ≠ none)
    (hempty : ∃ e < u.capacity, u.entries e = none) :
    (u.file cfg (u.home (cfg.hf w.obj)) offset (probes + 1) w).Built cfg (u.place cfg offset) := by
  have hl := h.lines
  have hh : u.home (cfg.hf w.obj) < u.capacity := home_lt hl.capacity_pos _
  have hpath' : ∀ k < probes,
      u.place cfg (cursor cfg.line u.capacity (u.home (cfg.hf w.obj)) k) ≠ none :=
    fun k hk hnone => hpath k hk (place_eq_none.mp hnone)
  have hlt : probes < u.capacity := by
    obtain ⟨e, he, hnone⟩ := hempty
    exact probes_lt hl hh he (place_eq_none.mpr hnone) hpath'
  have hin : offset < u.capacity := hoffset ▸ cursor_lt hl hh probes
  have hplace := place_file cfg u offset (probes + 1) w
  constructor
  · exact h.capacity
  · have hidem : Function.update (u.place cfg) offset
        (some ⟨u.home (cfg.hf w.obj), probes + 1⟩) =
          Function.update (Function.update (u.place cfg) offset none) offset _ :=
      (Function.update_idem _ _ _).symm
    rw [hplace, hidem]
    refine (h.placed.remove offset).fill hh (Nat.succ_pos _) hlt hoffset fun k hk => ?_
    rw [Function.update_of_ne]
    · exact hpath' k hk
    · rw [← hoffset]
      intro he
      have hk' : k < probes := hk
      have := cursor_inj hl hh (by omega) hlt he
      omega
  · intro s hs
    have hupdate := passing_update cfg.line (u.place cfg) hin
      (some ⟨u.home (cfg.hf w.obj), probes + 1⟩) s
    rw [hplace]
    refine (h.counts s hs).trans ?_
    exact congrArg (· % 2 ^ 16) hupdate.symm
  · intro t ht
    by_cases hto : t = offset
    · simp [Map.file, hto] at ht
    · simp only [Map.file, Function.update_of_ne hto] at ht ⊢
      exact h.empty t ht
  · intro t
    by_cases hto : t = offset
    · simp [Map.file, hto]
    · simp only [Map.file, Function.update_of_ne hto]
      exact (h.bound t).trans (le_max_left _ _)

/-- The entry at hand passes a slot. -/
theorem Built.passBy {home : Nat} (h : u.Built cfg (some ⟨home, probes + 1⟩))
    (hh : home < u.capacity) (hlt : probes < u.capacity)
    (hoffset : cursor cfg.line u.capacity home probes = offset) :
    (u.passBy offset).Built cfg (some ⟨home, probes + 2⟩) where
  capacity := h.capacity
  placed := h.placed
  counts s hs := by
    have hcount := h.counts s hs
    have hnot : ¬ Along cfg.line u.capacity home 0 probes offset := by
      rw [← hoffset]
      exact not_along_cursor h.lines hh hlt hlt.le (.inr le_rfl)
    have hlast : Along cfg.line u.capacity home 0 (probes + 1) s ↔
        offset = s ∨ Along cfg.line u.capacity home 0 probes s := by
      rw [along_last (Nat.zero_le _), hoffset]
    simp only [through_some, Place.Passes, Nat.add_sub_cancel] at hcount
    simp only [through_some, Place.Passes]
    change Function.update u.wanted offset (inc 16 (u.wanted offset)) s =
      (passing cfg.line u.capacity (u.place cfg) s +
        if Along cfg.line u.capacity home 0 (probes + 1) s then 1 else 0) % 2 ^ 16
    by_cases hso : s = offset
    · subst hso
      rw [if_neg hnot] at hcount
      rw [Function.update_self, if_pos (hlast.mpr (.inl rfl)), inc, hcount]
      omega
    · rw [Function.update_of_ne hso, hcount]
      refine congrArg (fun n => (_ + n) % 2 ^ 16) (if_congr ?_ rfl rfl)
      rw [hlast, or_iff_right (Ne.symm hso)]
  empty := h.empty
  bound := h.bound

/-- A word is filed only if the new map has an empty slot. -/
theorem growInsert_empty {h : BitVec 64} (hdvd : cfg.line ∣ u.capacity) (hlt : offset < u.capacity)
    (hg : u.growInsert cfg fuel w h offset probes = some u') :
    ∃ e < u.capacity, u.entries e = none := by
  induction fuel generalizing w h offset probes u with
  | zero => cases hg
  | succ fuel ih =>
    rw [growInsert_succ] at hg
    split at hg
    · cases hg
    split at hg
    · rename_i hempty
      exact ⟨offset, hlt, hempty⟩
    · rename_i x hx
      split at hg
      · obtain ⟨e, he, hempty⟩ := ih (u := u.file cfg (u.home h) offset (probes + 1) w) hdvd hlt hg
        refine ⟨e, he, ?_⟩
        by_cases heo : e = offset
        · simp [Map.file, heo] at hempty
        · simpa [Map.file, Function.update_of_ne heo] using hempty
      · exact ih (u := u.passBy offset) hdvd (probeNext_lt cfg.line_pos hdvd hlt _) hg

/-- A word is filed, and the ones that it puts aside. -/
theorem growInsert_built (hu : u.Built cfg (some ⟨u.home (cfg.hf w.obj), probes + 1⟩))
    (hoffset : cursor cfg.line u.capacity (u.home (cfg.hf w.obj)) probes = offset)
    (hpath : ∀ k < probes,
      u.entries (cursor cfg.line u.capacity (u.home (cfg.hf w.obj)) k) ≠ none)
    (hg : u.growInsert cfg fuel w (cfg.hf w.obj) offset probes = some u') :
    u'.Built cfg none := by
  induction fuel generalizing w offset probes u with
  | zero => cases hg
  | succ fuel ih =>
    have hl := hu.lines
    have hh : u.home (cfg.hf w.obj) < u.capacity := home_lt hl.capacity_pos _
    have hin : offset < u.capacity := hoffset ▸ cursor_lt hl hh probes
    have hempty := growInsert_empty hl.dvd hin hg
    have hfile := hu.file hoffset hpath hempty
    rw [growInsert_succ] at hg
    split at hg
    · cases hg
    split at hg
    · rename_i hnone
      cases hg
      rw [place_eq_none.mpr hnone] at hfile
      exact ⟨hfile.capacity, hfile.placed, hfile.counts, hfile.empty, hfile.bound⟩
    · rename_i x hx
      split at hg
      · -- the entry that was there goes on from its own slot
        have hplace : u.place cfg offset =
            some ⟨u.home (cfg.hf x.obj), u.probes offset⟩ := place_of_entry hx
        obtain ⟨-, hpos, -, hstand⟩ := hu.placed.stands offset _ hplace
        dsimp only at hpos hstand
        rw [hplace, ← Nat.sub_add_cancel hpos] at hfile
        refine ih hfile hstand (fun k hk => ?_) hg
        have hused := (hu.placed.filled offset _ hplace k hk).resolve_left nofun
        change Function.update u.entries offset (some w)
          (cursor cfg.line u.capacity (u.home (cfg.hf x.obj)) k) ≠ none
        by_cases ho : cursor cfg.line u.capacity (u.home (cfg.hf x.obj)) k = offset
        · rw [ho, Function.update_self]
          exact Option.some_ne_none w
        · rw [Function.update_of_ne ho]
          exact mt place_eq_none.mpr hused
      · have hlt : probes < u.capacity := by
          obtain ⟨e, he, hnone⟩ := hempty
          exact probes_lt (P := u.place cfg) hl hh he (place_eq_none.mpr hnone)
            fun k hk hnone => hpath k hk (place_eq_none.mp hnone)
        refine ih (u := u.passBy offset) (hu.passBy hh hlt hoffset) ?_ (fun k hk => ?_) hg
        · rw [← hoffset]
          rfl
        · rcases Nat.lt_succ_iff_lt_or_eq.mp hk with hk | rfl
          · exact hpath k hk
          · change u.entries (cursor cfg.line u.capacity (u.home (cfg.hf w.obj)) k) ≠ none
            rw [hoffset, hx]
            exact Option.some_ne_none x

theorem Built.create (cfg : Config V) (loadFactor entries : Nat) :
    (Map.create loadFactor entries : Map V).Built cfg none where
  capacity := by
    obtain ⟨k, h3, hk⟩ := mapSlots_pow entries
    have hle := mapSlots_le entries
    rw [hk] at hle
    have := (Nat.pow_le_pow_iff_right (by decide)).mp hle
    exact ⟨k, h3, by omega, hk⟩
  placed := ⟨nofun, nofun⟩
  counts s _ := by
    have hpass : passing cfg.line (Map.create loadFactor entries : Map V).capacity
        ((Map.create loadFactor entries : Map V).place cfg) s = 0 := tally_eq_zero fun _ _ => rfl
    rw [hpass]
    rfl
  empty _ _ := rfl
  bound _ := le_rfl

/-- The new map has been filled. -/
theorem fill_built {ks : List Nat} (hu : u.Built cfg none) (hf : m.fill cfg u ks = some u') :
    u'.Built cfg none := by
  induction ks generalizing u with
  | nil =>
    cases hf
    exact hu
  | cons k ks ih =>
    rw [fill_cons] at hf
    obtain ⟨u₁, hk, hf⟩ := Option.bind_eq_some_iff.mp hf
    refine ih ?_ hf
    unfold growCopy at hk
    split at hk
    · cases hk
      exact hu
    · exact growInsert_built (hu.take _) rfl (fun k hk => absurd hk (Nat.not_lt_zero k)) hk

end Map

end ConcurrencyKit.Rhs
