import ConcurrencyKit.Rhs.Lookup

/-!
# What a call that grows the map asks for

A call that cannot find room doubles the capacity and starts over. It gives up only when an
allocation fails, and it is not done after a number of rounds only if the capacity has been doubled
in each of them. A capacity of `2 ^ 31` is beyond what `ck_rhs` rounds to a power of two.
-/

namespace ConcurrencyKit.Rhs

variable {V : Type}

namespace State

/-- An allocation between the two states has failed, or a capacity has become too large. -/
def Exhausted (cfg : Config V) (hs hs' : State V) : Prop :=
  (∃ n, hs.allocs ≤ n ∧ n < hs'.allocs ∧ cfg.malloc n = false) ∨ 2 ^ 31 ≤ hs'.peak

/-- The second state comes after the first one. -/
structure Evolves (hs hs' : State V) : Prop where
  allocs : hs.allocs ≤ hs'.allocs
  peak : hs.peak ≤ hs'.peak
  capacity : hs.map.capacity ≤ hs.peak → hs'.map.capacity ≤ hs'.peak

/-- The capacity has been doubled, or it is too large. -/
def Doubles (hs hs' : State V) : Prop :=
  2 ^ 31 ≤ hs'.peak ∨ hs.map.capacity * 2 ≤ hs'.map.capacity

variable {cfg : Config V} {hs hs' hs'' : State V} {slot n capacity : Nat} {prevs : List (Nat × Nat)}

namespace Evolves

theorem refl (hs : State V) : Evolves hs hs := ⟨le_rfl, le_rfl, id⟩

theorem trans (h : Evolves hs hs') (h' : Evolves hs' hs'') : Evolves hs hs'' :=
  ⟨h.allocs.trans h'.allocs, h.peak.trans h'.peak, h'.capacity ∘ h.capacity⟩

theorem of_makes {P : Store V → Prop} (h : Makes P hs hs') (hp : ∀ s, P s → s.Local) :
    Evolves hs hs' := by
  have hc := h.keeps Map.capacity fun m s hs => by
    have hlocal := hp s hs
    cases s <;> first | rfl | exact hlocal.elim
  obtain ⟨stores, rfl, -⟩ := h
  exact ⟨le_rfl, le_rfl, fun hle => hc.trans_le hle⟩

end Evolves

theorem Exhausted.mono_left (h : Exhausted cfg hs' hs'') (he : Evolves hs hs') :
    Exhausted cfg hs hs'' := by
  refine h.imp_left ?_
  rintro ⟨n, hn, hlt, hm⟩
  exact ⟨n, he.allocs.trans hn, hlt, hm⟩

theorem Exhausted.mono_right (h : Exhausted cfg hs hs') (he : Evolves hs' hs'') :
    Exhausted cfg hs hs'' := by
  refine h.imp ?_ fun hpeak => hpeak.trans he.peak
  rintro ⟨n, hn, hlt, hm⟩
  exact ⟨n, hn, hlt.trans_le he.allocs, hm⟩

/-! ## Growing -/

/-- What a growth has asked for. -/
structure Asked (cfg : Config V) (hs : State V) (requested : Nat) (r : Bool × State V) : Prop where
  evolves : Evolves hs r.2
  failed : r.1 = false → requested < hs.map.capacity ∨ Exhausted cfg hs r.2
  le : r.1 = true → hs.map.capacity ≤ requested
  grown : r.1 = true → 2 ^ 31 ≤ r.2.peak ∨ requested ≤ r.2.map.capacity

theorem create_evolves (cfg : Config V) (hs : State V) (requested : Nat) :
    Evolves hs (hs.create cfg requested).2 :=
  ⟨Nat.le_succ _, le_max_left _ _, fun h => h.trans (le_max_left _ _)⟩

theorem growLoop_asked {fuel requested : Nat} (hpos : 0 < hs.map.capacity)
    (hfuel : 2 ^ 31 ≤ hs.peak ∨
      0 < fuel ∧ (0 < requested → 2 ^ 31 ≤ requested * 2 ^ (fuel - 1))) :
    Asked cfg hs requested (growLoop cfg fuel requested hs) := by
  induction fuel generalizing requested hs with
  | zero =>
    exact ⟨.refl hs, fun _ => .inr (.inr (hfuel.resolve_right fun h => lt_irrefl 0 h.1)),
      (fun h => by cases h), fun h => by cases h⟩
  | succ fuel ih =>
    rw [growLoop]
    split
    · rename_i hlt
      exact ⟨.refl hs, fun _ => .inl hlt, (fun h => by cases h), fun h => by cases h⟩
    rename_i hle
    rw [Nat.not_lt] at hle
    have hev : Evolves hs (hs.create cfg requested).2 := create_evolves cfg hs requested
    have hpeak : max requested (mapSlots requested) ≤ (hs.create cfg requested).2.peak :=
      le_max_right _ _
    have hmap : (hs.create cfg requested).2.map = hs.map := rfl
    cases hmalloc : cfg.malloc hs.allocs with
    | false =>
      have hcreate : hs.create cfg requested = (none, (hs.create cfg requested).2) := by
        simp [create, hmalloc]
      rw [hcreate]
      exact ⟨hev, fun _ => .inr (.inl ⟨hs.allocs, le_rfl, Nat.lt_succ_self _, hmalloc⟩),
        (fun h => by cases h), fun h => by cases h⟩
    | true =>
      have hcreate : hs.create cfg requested =
          (some (Map.create hs.loadFactor requested), (hs.create cfg requested).2) := by
        simp [create, hmalloc]
      rw [hcreate]
      dsimp only
      generalize (hs.create cfg requested).2 = hs₁ at hev hpeak hmap ⊢
      split
      · -- all entries fit
        rename_i filled hfill
        have hcap : filled.capacity = mapSlots requested := (filled_words (m := hs.map) hfill).2.1
        refine ⟨⟨hev.allocs, hev.peak, fun _ => ?_⟩, (fun h => by cases h), fun _ => hle,
          fun _ => ?_⟩
        · exact hcap.trans_le ((le_max_right _ _).trans hpeak)
        · by_cases hbig : requested ≤ 2 ^ 31
          · exact .inr ((le_mapSlots hbig).trans_eq hcap.symm)
          · exact .inl (le_trans (by omega) ((le_max_left _ _).trans hpeak))
      · -- an entry has found no slot
        have hasked := (le_max_left _ _).trans hpeak
        have hdouble : requested < 2 ^ 31 → requested * 2 % 2 ^ 64 = requested * 2 := by omega
        have hrest := @ih hs₁ (requested * 2 % 2 ^ 64) (hmap ▸ hpos) (by
          rcases hfuel with hf | ⟨-, hf⟩
          · exact .inl (hf.trans hev.peak)
          by_cases hbig : requested < 2 ^ 31
          · have hf' := hf (by omega)
            rw [Nat.add_sub_cancel] at hf'
            cases fuel with
            | zero => omega
            | succ fuel =>
              refine .inr ⟨Nat.succ_pos _, fun _ => ?_⟩
              rwa [hdouble hbig, Nat.add_sub_cancel, Nat.mul_assoc, ← Nat.pow_succ']
          · exact .inl (le_trans (by omega) hasked))
        have hbig' : 2 ^ 31 ≤ requested →
            2 ^ 31 ≤ (growLoop cfg fuel (requested * 2 % 2 ^ 64) hs₁).2.peak := fun hbig =>
          hbig.trans (hasked.trans hrest.evolves.peak)
        refine ⟨hev.trans hrest.evolves, fun hfalse => .inr ?_, fun _ => hle, fun htrue => ?_⟩
        · rcases Nat.lt_or_ge requested (2 ^ 31) with hlt | hbig
          · have hnot := hrest.failed hfalse
            rw [hmap] at hnot
            refine (hnot.resolve_left fun h => ?_).mono_left hev
            rw [hdouble hlt] at h
            omega
          · exact .inr (hbig' hbig)
        · rcases Nat.lt_or_ge requested (2 ^ 31) with hlt | hbig
          · refine (hrest.grown htrue).imp_right fun hcap => le_trans ?_ hcap
            rw [hdouble hlt]
            exact Nat.le_mul_of_pos_right _ (by decide)
          · exact .inl (hbig' hbig)

theorem grow_asked (cfg : Config V) (hpos : 0 < hs.map.capacity) (requested : Nat) :
    Asked cfg hs requested (hs.grow cfg requested) := by
  refine growLoop_asked hpos (.inr ⟨by omega, fun h => ?_⟩)
  rw [Nat.add_sub_cancel 64 1]
  omega

/-- A growth to twice the capacity. -/
theorem grow_doubles (hpos : 0 < hs.map.capacity) {hs' : State V}
    (h : hs.grow cfg (hs.map.capacity * 2) = (true, hs')) : Evolves hs hs' ∧ Doubles hs hs' := by
  have hasked := grow_asked cfg hpos (hs.map.capacity * 2)
  rw [h] at hasked
  exact ⟨hasked.evolves, hasked.grown rfl⟩

theorem grow_exhausted (hpos : 0 < hs.map.capacity) {hs' : State V}
    (h : hs.grow cfg (hs.map.capacity * 2) = (false, hs')) :
    Evolves hs hs' ∧ Exhausted cfg hs hs' := by
  have hasked := grow_asked cfg hpos (hs.map.capacity * 2)
  rw [h] at hasked
  exact ⟨hasked.evolves, (hasked.failed rfl).resolve_left fun hlt => absurd hlt (by omega)⟩

/-! ## Robin Hood insertion -/

/-- What a Robin Hood insertion or an installation has asked for. -/
structure Tried (cfg : Config V) (hs : State V) (r : Relocation × State V) : Prop where
  evolves : Evolves hs r.2
  failed : r.1 = .failed → Exhausted cfg hs r.2
  grown : r.1 = .grown → Doubles hs r.2

theorem Doubles.of_capacity {hs₁ : State V} (h : Doubles hs₁ hs')
    (hc : hs₁.map.capacity = hs.map.capacity) : Doubles hs hs' := by
  unfold Doubles at h ⊢
  rwa [hc] at h

theorem relocationGrow_tried (cfg : Config V) (slot : Nat) (prevs : List (Nat × Nat))
    (hpos : 0 < hs.map.capacity) :
    Tried cfg hs (hs.relocationGrow cfg slot prevs) := by
  unfold relocationGrow
  cases hgrow : hs.grow cfg (hs.map.capacity * 2) with
  | mk ok hs₁ =>
    cases ok with
    | true =>
      obtain ⟨hev, hdouble⟩ := grow_doubles hpos hgrow
      exact ⟨hev, (fun h => by cases h), fun _ => hdouble⟩
    | false =>
      obtain ⟨hev, hex⟩ := grow_exhausted hpos hgrow
      have hrestore : Evolves hs₁
          (hs₁.exec (.inRh slot false :: restoreStores slot none prevs.reverse)) := by
        refine .of_makes (P := Store.Local) (.exec fun s hs => ?_) fun _ => id
        rcases List.mem_cons.mp hs with rfl | hs
        · trivial
        · rcases mem_restoreStores.mp hs with ⟨t, -, rfl⟩ | ⟨t, k, -, rfl⟩ <;> trivial
      exact ⟨hev.trans hrestore, fun _ => hex.mono_right hrestore, fun h => by cases h⟩

theorem relocationMove_evolves {e : Nat} : Evolves hs (hs.relocationMove cfg slot e n prevs) := by
  unfold relocationMove
  refine .trans ?_ (.of_makes shiftChain_plain fun s hs => by cases s <;> trivial)
  refine .trans ?_ (.of_makes (addWanted_plain cfg _ _ _ _) fun s hs => by cases s <;> trivial)
  refine .trans ?_ (.of_makes (.exec ?_) fun s (hs : s.Local) => hs)
  · exact .of_makes (.boundSet cfg hs _ n (fun _ => trivial) fun _ => trivial) fun _ => id
  · simp [Store.Local, Map.signal]

theorem putRobinHood_tried (cfg : Config V) (slot : Nat) (hpos : 0 < hs.map.capacity) :
    Tried cfg hs (hs.putRobinHood cfg slot) := by
  obtain ⟨slot', prevs, hs', hc, -, hend⟩ :=
    putRobinHoodLoop_ended cfg maxRh rfl (Chosen.start hs slot)
  have hmark := Evolves.of_makes hc.mark fun s hs => by cases s <;> trivial
  have hcap := hc.mark.chooses_keep.1
  unfold putRobinHood
  generalize putRobinHoodLoop cfg maxRh slot _ [] hs = r at hend ⊢
  cases hend with
  | grow =>
    have htried := relocationGrow_tried cfg slot' prevs (hcap.symm ▸ hpos)
    exact ⟨hmark.trans htried.evolves, fun h => (htried.failed h).mono_left hmark,
      fun h => (htried.grown h).of_capacity hcap⟩
  | move => exact ⟨hmark.trans relocationMove_evolves, (fun h => by cases h), fun h => by cases h⟩

/-! ## Installation -/

theorem markRh_evolves (hs : State V) (guard : Option Nat) (value : Bool) :
    Evolves hs (hs.markRh guard value) :=
  .of_makes (markRh_minor hs guard value) fun s hs => by cases s <;> trivial

theorem delete_evolves (cfg : Config V) (hs : State V) (slot : Nat) :
    Evolves hs (hs.doBackwardShiftDelete cfg slot) :=
  .of_makes (doBackwardShiftDelete_quiet cfg hs slot) fun s hs => by cases s <;> trivial

theorem exec_evolves {stores : List (Store V)} (h : ∀ s ∈ stores, s.Local) :
    Evolves hs (hs.exec stores) := .of_makes (.exec h) fun _ => id

theorem addWanted_evolves (cfg : Config V) (hs : State V) (e : Nat) (old : Option Nat)
    (home : Nat) : Evolves hs (hs.addWanted cfg e old home) :=
  .of_makes (addWanted_plain cfg hs e old home) fun s hs => by cases s <;> trivial

theorem Tried.moved (h : Evolves hs hs') : Tried cfg hs (.moved, hs') where
  evolves := h
  failed h := by cases h
  grown h := by cases h

theorem Tried.after {hs₁ : State V} {r : Relocation × State V} (h : Tried cfg hs₁ r)
    (he : Evolves hs hs₁) (hc : hs₁.map.capacity = hs.map.capacity) : Tried cfg hs r :=
  ⟨he.trans h.evolves, fun hr => (h.failed hr).mono_left he,
    fun hr => (h.grown hr).of_capacity hc⟩

theorem install_tried (hpos : 0 < hs.map.capacity) (h : BitVec 64) (r : ProbeResult V) (w : Word V)
    (guard : Option Nat) (hsome : r.first ≠ none ∨ r.slot ≠ none) :
    Tried cfg hs (hs.install cfg h r w guard) := by
  unfold install
  have hbound : Evolves hs (hs.exec (hs.map.boundSet cfg (hs.map.home h) r.nProbes)) :=
    .of_makes (P := Store.Local) (.boundSet cfg hs _ _ (fun _ => trivial) fun _ => trivial)
      fun _ => id
  have hc : (hs.exec (hs.map.boundSet cfg (hs.map.home h) r.nProbes)).map.capacity =
      hs.map.capacity := by
    rw [exec_map, Map.applyAll_boundSet]
  generalize hs.exec (hs.map.boundSet cfg (hs.map.home h) r.nProbes) = hs₁ at hbound hc ⊢
  refine Tried.after ?_ hbound hc
  obtain ⟨slot, first, object, n⟩ := r
  cases first with
  | some first =>
    have hmark := markRh_evolves hs₁ guard true
    have hc₂ : (hs₁.markRh guard true).map.capacity = hs₁.map.capacity := by rw [markRh_map]
    have htried := (putRobinHood_tried cfg first (hc₂.symm ▸ hc.symm ▸ hpos)).after hmark hc₂
    dsimp only
    generalize (hs₁.markRh guard true).putRobinHood cfg first = res at htried ⊢
    obtain ⟨_ | _ | _, hs₂⟩ := res
    · have hmoved := htried.evolves.trans (markRh_evolves hs₂ guard false)
      dsimp only
      generalize hs₂.markRh guard false = hs₃ at hmoved ⊢
      have hadd : Evolves hs₁ ((hs₃.exec [.entry first (some w), .probes first n]).addWanted cfg
          first none (hs₃.map.home h)) :=
        hmoved.trans (.trans (exec_evolves (by simp [Store.Local])) (addWanted_evolves cfg _ _ _ _))
      split
      · refine .moved (hadd.trans (.trans ?_ (delete_evolves cfg _ _)))
        exact exec_evolves (by simp [Store.Local, Map.signal])
      · exact .moved hadd
    · have hunmark := markRh_evolves hs₂ guard false
      exact ⟨htried.evolves.trans hunmark, fun _ => (htried.failed rfl).mono_right hunmark,
        fun h => by cases h⟩
    · exact htried
  | none =>
    cases slot with
    | none => exact absurd rfl (hsome.resolve_left (absurd rfl))
    | some slot =>
      refine .moved ?_
      split
      · exact exec_evolves (by simp [Store.Local])
      · exact .trans (exec_evolves (by simp [Store.Local])) (addWanted_evolves cfg _ _ _ _)

theorem relocate_tried (hpos : 0 < hs.map.capacity) (h : BitVec 64) (key : V) (first slot n : Nat) :
    Tried cfg hs (hs.relocate cfg h key first slot n) := by
  unfold relocate
  have hmark := markRh_evolves hs (some slot) true
  have hc : (hs.markRh (some slot) true).map.capacity = hs.map.capacity := by rw [markRh_map]
  have htried := (putRobinHood_tried cfg first (hc.symm ▸ hpos)).after hmark hc
  generalize (hs.markRh (some slot) true).putRobinHood cfg first = res at htried ⊢
  obtain ⟨_ | _ | _, hs₂⟩ := res
  · refine .moved (htried.evolves.trans ((markRh_evolves hs₂ (some slot) false).trans ?_))
    refine .trans ?_ (delete_evolves cfg _ _)
    exact .trans (exec_evolves (by simp [Store.Local, Map.signal])) (addWanted_evolves cfg _ _ _ _)
  · have hunmark := markRh_evolves hs₂ (some slot) false
    exact ⟨htried.evolves.trans hunmark, fun _ => (htried.failed rfl).mono_right hunmark,
      fun h => by cases h⟩
  · exact htried

theorem postinsert_evolves (hpos : 0 < hs.map.capacity) : Evolves hs (hs.postinsert cfg) := by
  have hcount : Evolves hs (hs.exec [.nEntries (hs.map.nEntries + 1)]) :=
    exec_evolves (by simp [Store.Local])
  unfold postinsert
  dsimp only
  split
  · have hpos' : 0 < (hs.exec [.nEntries (hs.map.nEntries + 1)]).map.capacity := hpos
    exact hcount.trans (grow_asked cfg hpos' _).evolves
  · exact hcount

end State

end ConcurrencyKit.Rhs
