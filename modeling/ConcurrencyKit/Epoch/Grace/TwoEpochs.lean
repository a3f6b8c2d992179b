import ConcurrencyKit.Epoch.Grace.Synchronize

/-!
# Active records are in one of two epochs

The epoch in a record is the one that it stands for, unless `_ck_epoch_delref` moves the record
back. On a record that is not observed a bucket in use is never older than the record. On a record
that is observed it may be, but there the sections are nested, so that a bucket becomes empty before
an older one does, and the comparison of their epochs says so as long as they are less than `2 ^ 31`
apart.
-/

namespace ConcurrencyKit.Epoch.Grace

open Threads (Invariant GuardedInvariant System)

variable {ι : Type}

/-- `ck_epoch_observe` is called only on records that are `observed`, and the sections of these are
nested. -/
def Orderly (observed : Prop) (xs : List Section) : Pc ι → Prop
  | .observeLoad | .observeStore _ => observed
  | .endActive x => observed → xs.head? = some x
  | _ => True

/-- A step that keeps the order of the sections. -/
def OrderlyStep [DecidableEq ι] (observed : ι → Prop) (i : ι) (m : Mem ι) (t : Thread ι)
    (m' : Mem ι) (t' : Thread ι) : Prop :=
  Step i m t m' t' ∧ (t.pc.Client → Orderly (observed i) (m.sections i) t'.pc)

/-- No section on a record that is observed lasts for `2 ^ 31` ticks. -/
def Brief (observed : ι → Prop) (i : ι) (m : Mem ι) (t : Thread ι) : Prop :=
  Few i m t ∧ (observed i → ∀ x ∈ m.sections i, m.epoch < x.since + 2 ^ 31)

/-- The record is in the epoch that it stands for, and stays there when a bucket becomes empty. -/
structure Exact (observed : Prop) (r : Record) (xs : List Section) (reached : Nat) (pc : Pc ι) :
    Prop where
  epoch : xs.length + pc.opening ≠ 0 → r.epoch = reached
  free : ¬ observed → ∀ b, (r.bucket b).count ≠ 0 → reached ≤ (r.bucket b).epoch
  nested : observed → (pc.closing ++ xs).Pairwise (fun x y => y.since ≤ x.since) ∧
    ∀ b, (r.bucket b).count ≠ 0 →
      ∃ x ∈ pc.closing ++ xs, x.bucket = some b ∧ x.since ≤ (r.bucket b).epoch
  orderly : Orderly observed xs pc

/-- The comparison of two epochs in `_ck_epoch_delref`. -/
theorem sub_not_neg {c o : Nat} (hle : o ≤ c) (hlt : c < o + 2 ^ 31) :
    ¬ (BitVec.ofNat 32 c - BitVec.ofNat 32 o).toInt < 0 := by
  have hsub : BitVec.ofNat 32 c - BitVec.ofNat 32 o = BitVec.ofNat 32 (c - o) := by
    apply BitVec.eq_of_toNat_eq
    simp only [BitVec.toNat_sub, BitVec.toNat_ofNat]
    omega
  rw [hsub, BitVec.toInt_eq_toNat_of_lt]
  · omega
  · rw [BitVec.toNat_ofNat]
    omega

section Record

variable {i : ι} {observed : Prop} {r : Record} {xs : List Section} {x : Section}
  {reached e : Nat} {now : Moment} {reg : Prop} {pc pc' : Pc ι} {b : Fin 2}

/-- The last section of a bucket ends on a record with nested sections. -/
theorem Exact.not_moves (h : Exact observed r xs reached (.delref b x : Pc ι)) (ho : observed)
    (hown : Own i r xs reached now reg (.delref b x))
    (brief : ∀ y ∈ xs, now.epoch < y.since + 2 ^ 31) : ¬ (r.drop b).Moves b := by
  obtain ⟨hf, hs, -, hx, hsince, hbegun, few⟩ := hown
  obtain ⟨hsorted, hold⟩ := h.nested ho
  have hdrop := hs.drop few hx
  rintro ⟨hz, hpos, hlt⟩
  have hcur : ((r.drop b).bucket b).epoch = (r.bucket b).epoch := by
    rw [Record.drop_bucket_self]
  have hother : (r.drop b).bucket (b + 1) = r.bucket (b + 1) :=
    Record.drop_bucket_of_ne (succ_ne b) r
  rw [hcur, hother] at hlt
  -- the epoch of the bucket is the one of the section that ends
  have hxc : x.since ≤ (r.bucket b).epoch := by
    have hne : (r.bucket b).count ≠ 0 := by
      intro h0
      exact hs.not_mem h0 x List.mem_cons_self hx
    obtain ⟨y, hy, hyb, hle⟩ := hold b hne
    rcases List.mem_cons.mp hy with rfl | hy
    · exact hle
    · exact absurd hyb (hdrop.not_mem hz y hy)
  have hcx : (r.bucket b).epoch ≤ x.since := (hs.bucket x List.mem_cons_self b hx).2
  rw [hother] at hpos
  obtain ⟨y, hy, hyb, hle⟩ := hold (b + 1) hpos.ne'
  have hmem : y ∈ xs := by
    rcases List.mem_cons.mp hy with rfl | hy
    · rw [hx] at hyb
      exact absurd (Option.some.inj hyb).symm (succ_ne b)
    · exact hy
  have hoy : (r.bucket (b + 1)).epoch ≤ y.since := (hs.bucket y hy (b + 1) hyb).2
  have hyx : y.since ≤ x.since := (List.pairwise_cons.mp hsorted).1 y hmem
  have hbrief := brief y hmem
  exact sub_not_neg (by omega) (by omega) hlt

/-- The record gives up the reference of a section that has ended. -/
theorem Exact.delref (h : Exact observed r xs reached (.delref b x : Pc ι))
    (hown : Own i r xs reached now reg (.delref b x))
    (brief : observed → ∀ y ∈ xs, now.epoch < y.since + 2 ^ 31) (result : Option Bool) :
    Exact observed (r.delref b) xs (max reached (r.delref b).epoch) (.client result : Pc ι) := by
  have hs := hown.sound
  obtain ⟨-, hx, -, -, few⟩ := hown.known
  have hdrop : Sound (r.drop b) xs := hs.drop few hx
  have hrest : Sound (r.delref b) xs := hs.delref few hx
  have hbucket : ∀ c, ((r.delref b).bucket c).epoch = (r.bucket c).epoch := by
    intro c
    have hd : (r.delref b).bucket c = (r.drop b).bucket c := by
      unfold Record.delref
      split <;> rfl
    rw [hd]
    by_cases hc : c = b
    · subst hc
      rw [Record.drop_bucket_self]
    · rw [Record.drop_bucket_of_ne hc]
  have hused : ∀ c, ((r.delref b).bucket c).count ≠ 0 →
      (r.bucket c).count ≠ 0 ∧ ∃ y ∈ xs, y.bucket = some c := by
    intro c hc
    obtain ⟨y, hy, hyb⟩ := hrest.exists_mem (Nat.pos_of_ne_zero hc)
    refine ⟨fun h0 => ?_, y, hy, hyb⟩
    exact hs.not_mem h0 y (List.mem_cons_of_mem x hy) hyb
  have hepoch : xs ≠ [] → r.epoch = reached := by
    intro hne
    refine h.epoch ?_
    have := List.length_pos_of_ne_nil hne
    omega
  constructor
  · intro hne
    have hxs : xs ≠ [] := by
      rintro rfl
      exact hne rfl
    rcases hs.delref_epoch few hx with he | ⟨⟨y, hy, hyb⟩, -, he, hmoves⟩
    · rw [he, hepoch hxs, max_self]
    · by_cases ho : observed
      · exact absurd hmoves (h.not_moves ho hown (brief ho))
      · have hle : reached ≤ (r.bucket (b + 1)).epoch :=
          h.free ho (b + 1) fun h0 => hs.not_mem h0 y (List.mem_cons_of_mem x hy) hyb
        rw [he, max_eq_right hle]
  · intro ho c hc
    obtain ⟨hcount, y, hy, hyb⟩ := hused c hc
    rw [hbucket]
    have hle : reached ≤ (r.bucket c).epoch := h.free ho c hcount
    rcases hs.delref_epoch few hx with he | ⟨-, hno, he, -⟩
    · rw [he, hepoch (List.ne_nil_of_mem hy), max_self]
      exact hle
    · have hcb : c = b + 1 := eq_other fun hcb => hno y hy (hcb ▸ hyb)
      rw [he, ← hcb]
      exact max_le hle le_rfl
  · intro ho
    obtain ⟨hsorted, hold⟩ := h.nested ho
    obtain ⟨hfirst, htail⟩ := List.pairwise_cons.mp hsorted
    refine ⟨htail, fun c hc => ?_⟩
    obtain ⟨hcount, z, hz, hzb⟩ := hused c hc
    obtain ⟨y, hy, hyb, hle⟩ := hold c hcount
    rw [hbucket]
    rcases List.mem_cons.mp hy with rfl | hy
    · exact ⟨z, hz, hzb, (hfirst z hz).trans hle⟩
    · exact ⟨y, hy, hyb, hle⟩
  · trivial

/-- A section begins behind the ones that are open. -/
theorem Exact.cons (h : Exact observed r xs reached pc) (hc : pc.closing = [])
    (hle : ∀ y ∈ xs, y.since ≤ x.since) (hepoch : r.epoch = reached)
    (result : Option Bool) :
    Exact observed r (x :: xs) reached (.client result : Pc ι) where
  epoch _ := hepoch
  free := h.free
  nested ho := by
    obtain ⟨hsorted, hold⟩ := h.nested ho
    rw [hc] at hsorted hold
    refine ⟨List.pairwise_cons.mpr ⟨hle, hsorted⟩, fun b hb => ?_⟩
    obtain ⟨y, hy, hyb, hye⟩ := hold b hb
    exact ⟨y, List.mem_cons_of_mem x hy, hyb, hye⟩
  orderly := trivial

/-- A section with an object begins. -/
theorem Exact.addref (h : Exact observed r xs reached (.addref : Pc ι))
    (hle : ∀ y ∈ xs, y.since ≤ e) (hreached : reached ≤ e) (c : Moment) (result : Option Bool) :
    Exact observed (r.addref e) (⟨some (sense e), e, c⟩ :: xs) reached
      (.client result : Pc ι) where
  epoch _ := h.epoch (Nat.succ_ne_zero _)
  free ho b hb := by
    by_cases hbs : b = sense e
    · subst hbs
      rw [Record.addref_bucket_self]
      dsimp only
      by_cases h0 : (r.bucket (sense e)).count = 0
      · rw [if_pos h0]
        exact hreached
      · rw [if_neg h0]
        exact h.free ho _ h0
    · rw [Record.addref_bucket_of_ne hbs] at hb ⊢
      exact h.free ho b hb
  nested ho := by
    obtain ⟨hsorted, hold⟩ := h.nested ho
    refine ⟨List.pairwise_cons.mpr ⟨hle, hsorted⟩, fun b hb => ?_⟩
    have hkeep : (r.bucket b).count ≠ 0 → ((r.addref e).bucket b).epoch = (r.bucket b).epoch →
        ∃ y ∈ (⟨some (sense e), e, c⟩ :: xs : List Section), y.bucket = some b ∧
          y.since ≤ ((r.addref e).bucket b).epoch := by
      intro hcount heq
      obtain ⟨y, hy, hyb, hye⟩ := hold b hcount
      exact ⟨y, List.mem_cons_of_mem _ hy, hyb, heq ▸ hye⟩
    by_cases hbs : b = sense e
    · subst hbs
      by_cases h0 : (r.bucket (sense e)).count = 0
      · refine ⟨_, List.mem_cons_self, rfl, ?_⟩
        rw [Record.addref_bucket_self]
        dsimp only
        rw [if_pos h0]
      · refine hkeep h0 ?_
        rw [Record.addref_bucket_self]
        dsimp only
        rw [if_neg h0]
    · rw [Record.addref_bucket_of_ne hbs] at hb
      exact hkeep hb (by rw [Record.addref_bucket_of_ne hbs])
  orderly := trivial

end Record

theorem Pc.Neutral.orderly {pc : Pc ι} (h : pc.Neutral) {observed : Prop} {xs : List Section} :
    Orderly observed xs pc := by
  cases pc with
  | observeLoad => exact h.elim
  | observeStore e => exact h.elim
  | endActive x => exact h.elim
  | _ => trivial

section Steps

variable {i : ι} {m m' : Mem ι} {t t' : Thread ι} {pc pc' : Pc ι} {observed : Prop}

/-- The record after an access of its owner. -/
theorem Touch.exact (ht : Touch i m m' pc pc')
    (hown : Own i (m.record i) (m.sections i) (m.reached i) m.now (i ∈ m.records) pc)
    (brief : observed → ∀ x ∈ m.sections i, m.epoch < x.since + 2 ^ 31)
    (h : Exact observed (m.record i) (m.sections i) (m.reached i) pc) :
    Exact observed (m'.record i) (m'.sections i) (m'.reached i) pc' := by
  have hsince : ∀ y ∈ m.sections i, y.since ≤ m.epoch := fun y hy =>
    (hown.fits.begun y hy).1.trans (hown.fits.begun y hy).2.1
  have hclosed : pc.closing = [] → m.sections i = [] →
      ∀ b, ((m.record i).bucket b).count = 0 := by
    intro hc hnil b
    rw [hown.sound.count, hc, hnil]
    rfl
  cases ht with
  | keep record sections reached before after =>
    rw [record, sections, reached]
    obtain ⟨hc, hopen⟩ := before.closing
    obtain ⟨hc', hopen'⟩ := after.closing
    refine ⟨fun hne => h.epoch ?_, h.free, fun ho => ?_, after.orderly⟩
    · rw [hopen'] at hne
      rwa [hopen]
    · rw [hc', ← hc]
      exact h.nested ho
  | activate nil record sections reached =>
    rw [record, sections]
    have hcount := hclosed rfl nil
    exact ⟨fun hne => absurd rfl hne, fun _ b hb => absurd (hcount b) hb,
      fun _ => ⟨.nil, fun b hb => absurd (hcount b) hb⟩, trivial⟩
  | load nil same =>
    rw [same]
    refine ⟨fun hne => absurd ?_ hne, h.free, h.nested, trivial⟩
    rw [nil]
    rfl
  | nest nonempty record sections reached =>
    rw [record, sections, reached]
    have := List.length_pos_of_ne_nil nonempty
    exact ⟨fun _ => h.epoch (by omega), h.free, h.nested, trivial⟩
  | nestPlain nonempty record sections reached =>
    rw [record, sections, reached]
    have := List.length_pos_of_ne_nil nonempty
    have hcons := h.cons (x := ⟨none, m.epoch, m.now⟩) rfl hsince (h.epoch (by omega)) none
    exact ⟨hcons.epoch, hcons.free, hcons.nested, hcons.orderly⟩
  | store nil record sections reached =>
    rw [record, sections, reached]
    have hcount := hclosed rfl nil
    exact ⟨fun _ => rfl, fun _ b hb => absurd (hcount b) hb,
      fun _ => ⟨.nil, fun b hb => absurd (hcount b) hb⟩, trivial⟩
  | storePlain nil record sections reached =>
    rw [record, sections, reached]
    have hcount := hclosed rfl nil
    exact ⟨fun _ => rfl, fun _ b hb => absurd (hcount b) hb,
      fun _ => ⟨List.pairwise_singleton _ _, fun b hb => absurd (hcount b) hb⟩, trivial⟩
  | addref record sections reached =>
    rw [record, sections, reached]
    exact h.addref hsince hown.fits.reached_le _ none
  | endPlain mem plain record sections reached =>
    rw [record, sections, reached]
    have hpos := List.length_pos_of_mem mem
    refine ⟨fun _ => h.epoch (by omega), h.free, fun ho => ?_, trivial⟩
    obtain ⟨rest, hrest⟩ := List.head?_eq_some_iff.mp (h.orderly ho)
    obtain ⟨hsorted, hold⟩ := h.nested ho
    rw [hrest] at hsorted hold ⊢
    rw [List.erase_cons_head]
    refine ⟨(List.pairwise_cons.mp hsorted).2, fun b hb => ?_⟩
    obtain ⟨y, hy, hyb, hle⟩ := hold b hb
    rcases List.mem_cons.mp hy with rfl | hy
    · rw [plain] at hyb
      cases hyb
    · exact ⟨y, hy, hyb, hle⟩
  | endObject mem object record sections reached =>
    rw [record, sections, reached]
    have hpos := List.length_pos_of_mem mem
    refine ⟨fun _ => h.epoch (by omega), h.free, fun ho => ?_, trivial⟩
    obtain ⟨rest, hrest⟩ := List.head?_eq_some_iff.mp (h.orderly ho)
    have hnested := h.nested ho
    rw [hrest] at hnested ⊢
    rw [List.erase_cons_head]
    exact hnested
  | delref record sections reached =>
    rw [record, sections, reached]
    exact h.delref hown brief _
  | observeLoad same =>
    rw [same]
    exact ⟨h.epoch, h.free, h.nested, h.orderly⟩
  | observe record sections reached =>
    rw [record, sections, reached]
    have ho : observed := h.orderly
    obtain ⟨hsorted, hold⟩ := h.nested ho
    refine ⟨fun _ => rfl, fun hno => absurd ho hno, fun _ => ⟨?_, fun b hb => ?_⟩, trivial⟩
    · exact List.pairwise_map.mpr hsorted
    · obtain ⟨y, hy, hyb, hle⟩ := hold b hb
      exact ⟨_, List.mem_map_of_mem hy, hyb, hle⟩
  | pollStore nil record sections =>
    rw [record, sections]
    have hcount := hclosed rfl nil
    exact ⟨fun hne => absurd rfl hne, fun _ b hb => absurd (hcount b) hb,
      fun _ => ⟨.nil, fun b hb => absurd (hcount b) hb⟩, trivial⟩

/-- What the steps may rely on. -/
def Steady (observed : ι → Prop) (i : ι) (m : Mem ι) (t : Thread ι) : Prop :=
  Brief observed i m t ∧ Inv m ∧ At i m t

/-- The record of thread `i` is in the epoch that it stands for. -/
def ExactAt (observed : ι → Prop) (i : ι) (m : Mem ι) (t : Thread ι) : Prop :=
  Exact (observed i) (m.record i) (m.sections i) (m.reached i) t.pc

/-- Client code calls a function, or returns from a callback. -/
theorem Exact.call {r : Record} {xs : List Section} {reached : Nat}
    (h : Exact observed r xs reached pc) (client : pc.Client) (hc : pc'.closing = [])
    (hopen : pc'.opening = 0) (horder : Orderly observed xs pc') :
    Exact observed r xs reached pc' := by
  cases pc with
  | client result =>
    refine ⟨fun hne => h.epoch ?_, h.free, fun ho => ?_, horder⟩
    · rwa [hopen] at hne
    · rw [hc]
      exact h.nested ho
  | _ => exact client.elim

variable [DecidableEq ι] {observed : ι → Prop}

theorem step_exact (h : OrderlyStep observed i m t m' t') (ok : Steady observed i m t)
    (he : ExactAt observed i m t) : ExactAt observed i m' t' := by
  obtain ⟨hstep, horder⟩ := h
  obtain ⟨⟨few, brief⟩, hinv, hat⟩ := ok
  cases hstep with
  | register new client =>
    obtain ⟨-, hnil⟩ := hinv.unregistered new
    have hrecord : (m.register i).record i = ⟨0, 0, fun _ => ⟨0, 0⟩⟩ := Function.update_self ..
    obtain ⟨frames, pc⟩ := t
    cases pc with
    | client result =>
      unfold ExactAt
      rw [hrecord]
      show Exact _ _ (m.sections i) (m.reached i) _
      rw [hnil]
      exact ⟨fun hne => absurd rfl hne, fun _ b hb => absurd rfl hb,
        fun _ => ⟨.nil, fun b hb => absurd rfl hb⟩, trivial⟩
    | _ => exact client.elim
  | act running => exact (act_touch hat).exact hat brief he
  | beginSection object registered client => exact Exact.call he client rfl rfl (horder client)
  | endSection x mem client => exact Exact.call he client rfl rfl (horder client)
  | observe inside client => exact Exact.call he client rfl rfl (horder client)
  | call registered client => exact Exact.call he client rfl rfl (horder client)
  | callStrict r registered client => exact Exact.call he client rfl rfl (horder client)
  | poll deferred registered client => exact Exact.call he client rfl rfl (horder client)
  | synchronize barrier registered client => exact Exact.call he client rfl rfl (horder client)
  | leave f frames inside client => exact Exact.call he client rfl rfl (horder client)

theorem exact_invariant : GuardedInvariant (OrderlyStep observed) (Steady observed)
    (fun _ => True) (ExactAt observed) where
  own hstep ok _ _ he := ⟨trivial, step_exact hstep ok he⟩
  other hstep ok _ _ := by
    intro j q hj _ hq
    have hc := step_change hstep.1 ok.1.1 ok.2.2
    unfold ExactAt
    rw [hc.record j hj, hc.sections j hj, hc.reached j hj]
    exact hq

omit [DecidableEq ι] in
theorem init_brief (i : ι) : Brief observed i init ⟨[], .client none⟩ := ⟨init_few i, nofun⟩

omit [DecidableEq ι] in
theorem init_exact (i : ι) : ExactAt observed i init ⟨[], .client none⟩ :=
  ⟨fun hne => absurd rfl hne, fun _ _ hb => absurd rfl hb,
    fun _ => ⟨.nil, fun _ hb => absurd rfl hb⟩, trivial⟩

end Steps

instance (observed : ι → Prop) [DecidablePred observed] (i : ι) (m : Mem ι) (t : Thread ι) :
    Decidable (Brief observed i m t) :=
  inferInstanceAs (Decidable (_ ∧ (_ → _)))

/-- A thread in a section that has begun in the epoch 1, and has been observed after `n` ticks. -/
def lap (n : Nat) : System (Mem Unit) (Thread Unit) Unit where
  mem :=
    { epoch := n + 1
      records := [()]
      record := fun _ => ⟨n + 1, 1, fun b => if b = sense 1 then ⟨1, 1⟩ else ⟨0, 0⟩⟩
      pending := fun _ _ => []
      clock := n + 1
      sections := fun _ => [⟨some (sense 1), 1, ⟨n, n + 1⟩⟩]
      reached := fun _ => n + 1
      rounds := fun _ => []
      dispatched := [] }
  pc := fun _ => ⟨[], .client none⟩

theorem update_unit {α : Type} (f : Unit → α) (x : α) : Function.update f () x = fun _ => x := by
  funext u
  exact Function.update_self ..

/-- The thread polls, which advances the epoch. -/
theorem lap_poll (n : Nat) : ((lap n).call () ⟨[], .pollLoad false⟩).acts Mem.act () 9 =
    ⟨{ (lap n).mem with epoch := n + 2 }, fun _ => ⟨[], .client (some true)⟩⟩ := by
  simp [System.acts, System.call, Mem.act, lap, update_unit, Thread.go, Mem.enter, Mem.passed,
    Mem.tick, Mem.narrow, Mem.leave, Mem.empty, Mem.now]

/-- The thread observes the epoch. -/
theorem lap_observe (n : Nat) (pc : Unit → Thread Unit) :
    (System.call () ⟨[], .observeLoad⟩ ⟨{ (lap n).mem with epoch := n + 2 }, pc⟩).acts Mem.act () 2
      = lap (n + 1) := by
  simp [System.acts, System.call, Mem.act, lap, update_unit, Thread.go, Mem.advance, Mem.renew,
    Mem.set, Mem.reach]

theorem lap_reachable (n : Nat) :
    System.Reachable (OrderlyStep fun _ => True) (fun _ _ _ => True) start (lap n) := by
  have hacts : ∀ {s : System (Mem Unit) (Thread Unit) Unit},
      System.Reachable (OrderlyStep fun _ => True) (fun _ _ _ => True) start s → ∀ k : Nat,
      System.Reachable (OrderlyStep fun _ => True) (fun _ _ _ => True) start
        (s.acts Mem.act () k) :=
    fun hr k => acts_reachable hr () k (fun _ _ _ _ _ _ h => ⟨.act h, fun hc => absurd hc h⟩)
      fun _ _ _ => trivial
  induction n with
  | zero =>
    have h₀ : System.Reachable (OrderlyStep fun _ => True) (fun _ _ _ => True) start
        (start (ι := Unit)) := .refl
    have h₁ := h₀.extend () ⟨.register (by decide) trivial, fun _ => trivial⟩ (fun _ => trivial)
    have h₂ := h₁.extend () ⟨.beginSection true (by decide) trivial, fun _ => trivial⟩
      (fun _ => trivial)
    have h₃ := hacts h₂ 4
    convert h₃ using 1
    unfold lap
    congr 1
    congr 1
    funext i
    refine congrArg (Record.mk 1 1) (funext fun b => ?_)
    revert b
    decide
  | succ n ih =>
    have h₁ := hacts (ih.call () (p := ⟨[], .pollLoad false⟩)
      ⟨.poll false List.mem_cons_self trivial, fun _ => trivial⟩ fun _ => trivial) 9
    rw [lap_poll] at h₁
    have h₂ := hacts (h₁.call () (p := ⟨[], .observeLoad⟩)
      ⟨.observe (List.cons_ne_nil _ _) trivial, fun _ => trivial⟩ fun _ => trivial) 2
    rwa [lap_observe] at h₂

/-- A section with an object lasts for `2 ^ 31 + 1` ticks on a record that is observed. Then a
nested one begins and ends, and `_ck_epoch_delref` takes the epoch of the first one for the newer
one. -/
theorem moved_back : ∃ s : System (Mem Unit) (Thread Unit) Unit,
    System.Reachable (OrderlyStep fun _ => True) (fun _ m _ => m.epoch ≤ 2 ^ 32) start s ∧
      (s.mem.record ()).active = 1 ∧ s.mem.sections () ≠ [] ∧ (s.mem.record ()).epoch = 1 ∧
      s.mem.epoch = 2 ^ 31 + 2 := by
  have h₀ := lap_reachable (2 ^ 31 + 1)
  have hacts : ∀ {s : System (Mem Unit) (Thread Unit) Unit},
      System.Reachable (OrderlyStep fun _ => True) (fun _ _ _ => True) start s → ∀ k : Nat,
      System.Reachable (OrderlyStep fun _ => True) (fun _ _ _ => True) start
        (s.acts Mem.act () k) :=
    fun hr k => acts_reachable hr () k (fun _ _ _ _ _ _ h => ⟨.act h, fun hc => absurd hc h⟩)
      fun _ _ _ => trivial
  have h₁ := hacts (h₀.call () (p := ⟨[], .beginActive true⟩)
    ⟨.beginSection true List.mem_cons_self trivial, fun _ => trivial⟩ fun _ => trivial) 2
  have h₂ := hacts (h₁.call ()
    (p := ⟨[], .endActive ⟨some 0, 2 ^ 31 + 2, ⟨2 ^ 31 + 2, 2 ^ 31 + 2⟩⟩⟩)
    ⟨.endSection _ List.mem_cons_self trivial, fun _ _ => rfl⟩ fun _ => trivial) 2
  refine ⟨_, ticks_reachable (fun h => h.1) h₂ (by decide), by decide, by decide, by decide,
    by decide⟩

/-- `2 ^ 32` sections are open and the record looks inactive. The other thread advances the epoch
twice, and the end of one section makes the record look active again. -/
theorem left_behind : ∃ s : System (Mem Bool) (Thread Bool) Bool,
    System.Reachable (OrderlyStep fun _ => False) (fun _ m _ => m.epoch ≤ 2 ^ 32) start s ∧
      (s.mem.record true).active = 2 ^ 32 - 1 ∧ s.mem.sections true ≠ [] ∧
      (s.mem.record true).epoch = 1 ∧ s.mem.epoch = 3 := by
  have h₀ : System.Reachable (OrderlyStep fun _ => False) (fun _ _ _ => True) start
      (crowd (2 ^ 32 - 1)) := by
    refine crowd_reachable (fun h hcall => ⟨h, fun hc => ?_⟩) (by decide)
    rcases hcall hc with hpc | hpc
    · rw [hpc]
      trivial
    · rw [hpc]
      trivial
  have hacts : ∀ {s : System (Mem Bool) (Thread Bool) Bool},
      System.Reachable (OrderlyStep fun _ => False) (fun _ _ _ => True) start s →
      ∀ (i : Bool) (k : Nat), System.Reachable (OrderlyStep fun _ => False) (fun _ _ _ => True)
        start (s.acts Mem.act i k) :=
    fun hr i k => acts_reachable hr i k (fun _ _ _ _ _ _ h => ⟨.act h, fun hc => absurd hc h⟩)
      fun _ _ _ => trivial
  have hmem : false ∈ [true, false] := by decide
  have h₁ := hacts (h₀.extend false ⟨.beginSection false hmem trivial, fun _ => trivial⟩
    fun _ => trivial) false 3
  have h₂ := hacts (h₁.extend false ⟨.poll false hmem trivial, fun _ => trivial⟩
    fun _ => trivial) false 10
  have h₃ := hacts (h₂.extend false
    ⟨.endSection ⟨none, 1, ⟨2 ^ 32, 1⟩⟩ List.mem_cons_self trivial, fun _ h => h.elim⟩
    fun _ => trivial) false 1
  have h₄ := hacts (h₃.extend false ⟨.beginSection false hmem trivial, fun _ => trivial⟩
    fun _ => trivial) false 3
  have h₅ := hacts (h₄.extend false ⟨.poll false hmem trivial, fun _ => trivial⟩
    fun _ => trivial) false 10
  have h₆ := hacts (h₅.extend true
    ⟨.endSection ⟨none, 1, ⟨2 ^ 32 - 1, 1⟩⟩ List.mem_cons_self trivial, fun _ h => h.elim⟩
    fun _ => trivial) true 1
  exact ⟨_, ticks_reachable (fun h => h.1) h₆ (by decide), rfl, List.cons_ne_nil _ _, rfl, rfl⟩

end ConcurrencyKit.Epoch.Grace
