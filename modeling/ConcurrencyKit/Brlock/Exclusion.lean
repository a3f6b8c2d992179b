import ConcurrencyKit.Brlock.Invariant

/-!
# Readers and writers of a big-reader lock

A writer that has come to the end of the list has seen of every reader that it is not counted, and
no reader is let in while `writer` is set. So readers and the writer exclude each other, as long as
no reader is let in as often as the word `n_readers` has values.
-/

namespace ConcurrencyKit.Brlock

open Chain (Loc Cells Linked endFrom)
open Chain.Loc (head next)
open CkList (Back)

variable {ι : Type} {few : Bool} {i j : ι} {m m' : Mem ι} {pc pc' : Pc ι} {h : Held} {u u' : Use}
  {c : ι} {l₁ l₂ : List ι}

/-! ## What a thread finds out -/

/-- A thread that finds `writer` not set finds the list in order. -/
theorem Inv.owner_eq_none (hi : Inv m) (hfree : m.writer ≠ true) : m.owner = none := by
  by_contra hne
  exact hfree (hi.writer.mpr hne)

/-- A step in which nothing is stored. -/
theorem At.stay (hat : At few i m pc) (howns : pc'.owns = pc.owns) (hheld : pc'.held = pc.held)
    (hlisted : pc'.listed = pc.listed) (hcount : pc'.Counted → pc.Counted)
    (hbusy : pc'.busy = true → pc.busy = true) (hbody : Body few i m pc') : At few i m pc' where
  owner := howns ▸ hat.owner
  depth := hheld ▸ hat.depth
  listed := hlisted ▸ hat.listed
  count hc := hat.count (hcount hc)
  idle hb := hheld ▸ hat.idle (hbusy hb)
  writes hw := hat.writes (hheld ▸ hw)
  body := hbody

theorem Use.Ready.spend (hready : u.Ready i m h) (hspend : u.spend = some u') :
    u'.Ready i m h := by
  cases u with
  | write b =>
    obtain ⟨b', -, rfl⟩ := Option.map_eq_some_iff.mp hspend
    trivial
  | register | unregister =>
    obtain rfl := Option.some.inj hspend
    exact hready

/-- A reader that is not counted has not been let in. -/
theorem Quiet.concat (hquiet : Quiet few m l₁) (hi : Inv m) (hfew : Few few i m pc)
    (hzero : m.nReaders c = 0) : Quiet few m (l₁ ++ [c]) := by
  intro htrue r hr
  rcases List.mem_append.mp hr with hr | hr
  · exact hquiet htrue r hr
  · rw [List.mem_singleton.mp hr]
    have hmod := hi.count c hzero
    rwa [Nat.mod_eq_of_lt (hfew htrue c)] at hmod

/-- The condition of the loop over the readers. -/
theorem At.visit {cursor : Option ι} (hat : At few i m pc) (hbusy : pc.busy = true)
    (hheld : pc.held = h) (hlisted : pc.listed = h.registered) (hready : u.Ready i m h)
    (hl : Listed m) (hsplit : m.list = l₁ ++ l₂) (hquiet : Quiet few m l₁)
    (hcursor : cursor = l₂.head?) (hcount : h.registered = true → pc.Counted) :
    At few i m (u.visit cursor h) := by
  have howner : m.owner = some i := hat.owner.mpr (by rw [Pc.owns, hbusy, Bool.true_or])
  have hidle : h.writing = false := hheld ▸ hat.idle hbusy
  have hdepth : m.depth i = h.depth := hheld ▸ hat.depth
  have hmem : i ∈ m.list ↔ h.registered = true := hlisted ▸ hat.listed
  have hcounted : h.registered = true → m.nReaders i = m.depth i % 2 ^ 32 :=
    fun hr => hat.count (hcount hr)
  subst hcursor
  cases l₂ with
  | cons c l₂ =>
    exact ⟨iff_of_true howner rfl, hdepth, hmem, hcounted, fun _ => hidle,
      fun hw => absurd (hidle.symm.trans hw) Bool.false_ne_true, hready, hl, l₁, l₂, hsplit, hquiet⟩
  | nil =>
    rw [List.append_nil] at hsplit
    cases u with
    | write b =>
      exact ⟨iff_of_true howner rfl, hdepth, hmem, hcounted, Bool.false_ne_true.elim,
        fun _ => ⟨hl, hsplit ▸ hquiet⟩, trivial⟩
    | register | unregister =>
      exact ⟨iff_of_true howner rfl, hdepth, hmem, hcounted, fun _ => hidle,
        fun hw => absurd (hidle.symm.trans hw) Bool.false_ne_true, hready, hl⟩

theorem linked_head {d : Loc Unit ι} {l : List ι} (h : Linked (cells m) d l) :
    cells m d = l.head? := by
  cases l with
  | nil => exact h
  | cons a l => exact h.1

/-! ## Stores -/

theorem Inv.own (hi : Inv m) : Inv (m.own i) where
  writer := iff_of_true rfl (Option.some_ne_none i)
  free := nofun
  depth := hi.depth
  count := hi.count

theorem Inv.disown (hi : Inv m) (h : Listed m) : Inv m.disown where
  writer := iff_of_false Bool.false_ne_true (fun hne => hne rfl)
  free _ := ⟨h.nodup, h.linked, h.back⟩
  depth := hi.depth
  count := hi.count

variable [DecidableEq ι]

theorem Inv.setCount (hi : Inv m) {n : Nat} (hn : n = 0 → m.depth i % 2 ^ 32 = 0) :
    Inv (m.setCount i n) where
  writer := hi.writer
  free howner := ⟨(hi.free howner).nodup, (hi.free howner).linked, (hi.free howner).back⟩
  depth := hi.depth
  count r hr := by
    by_cases hri : r = i
    · rw [hri] at hr ⊢
      exact hn ((Function.update_self ..).symm.trans hr)
    · exact hi.count r ((Function.update_of_ne hri ..).symm.trans hr)

theorem keeps_setCount (n : Nat) : Keeps m (m.setCount i n) :=
  ⟨rfl, rfl, rfl, fun _ _ => rfl, fun _ => id⟩

theorem keeps_setPrevious (hi : i ∉ m.list) (v : Option ι) : Keeps m (m.setPrevious i v) where
  readers := rfl
  next := rfl
  list := rfl
  previous r hr := Function.update_of_ne (fun hri : r = i => hi (hri ▸ hr)) ..
  quiet _ := id

/-- A reader that is in the list is let in once more, or leaves. -/
theorem Inv.reads (hi : Inv m) {n d : Nat} (hmem : i ∈ m.list) (hn : n = 0 → d % 2 ^ 32 = 0) :
    Inv ((m.setCount i n).setDepth i d) where
  writer := hi.writer
  free howner := ⟨(hi.free howner).nodup, (hi.free howner).linked, (hi.free howner).back⟩
  depth r hr := by
    have hri : r ≠ i := fun hri => hr (hri ▸ hmem)
    exact (Function.update_of_ne hri ..).trans (hi.depth r hr)
  count r hr := by
    by_cases hri : r = i
    · have hcount : ((m.setCount i n).setDepth i d).nReaders i = n := Function.update_self ..
      have hdepth : ((m.setCount i n).setDepth i d).depth i = d := Function.update_self ..
      rw [hri, hcount] at hr
      rw [hri, hdepth]
      exact hn hr
    · have hdepth : ((m.setCount i n).setDepth i d).depth r = m.depth r :=
        Function.update_of_ne hri ..
      rw [hdepth]
      exact hi.count r ((Function.update_of_ne hri ..).symm.trans hr)

theorem keeps_reads {n d : Nat} (hd : m.depth i = 0 → d = 0) :
    Keeps m ((m.setCount i n).setDepth i d) where
  readers := rfl
  next := rfl
  list := rfl
  previous _ _ := rfl
  quiet r hr := by
    by_cases hri : r = i
    · rw [hri] at hr ⊢
      exact (Function.update_self ..).trans (hd hr)
    · exact (Function.update_of_ne hri ..).trans hr

theorem frame_reads {n d : Nat} (hj : j ≠ i)
    (hkeeps : m.owner = some j → Keeps m ((m.setCount i n).setDepth i d)) :
    Frame j m ((m.setCount i n).setDepth i d) where
  owner := .rfl
  depth := Function.update_of_ne hj ..
  listed := .rfl
  nReaders := Function.update_of_ne hj ..
  previous _ := rfl
  keeps := hkeeps

theorem At.reads (hat : At few i m pc) {n d : Nat} {h' : Held} (hbusy : pc.busy = false)
    (hwriting : h'.writing = pc.held.writing) (hlisted : pc.listed = h'.registered)
    (hd : h'.depth = d) (hn : n = d % 2 ^ 32)
    (hkeeps : h'.writing = true → Keeps m ((m.setCount i n).setDepth i d)) :
    At few i ((m.setCount i n).setDepth i d) (.outside h') where
  owner := by
    have howns : pc.owns = h'.writing := by rw [Pc.owns, hbusy, Bool.false_or, hwriting]
    exact hat.owner.trans (iff_of_eq (congrArg (· = true) howns))
  depth := (Function.update_self ..).trans hd.symm
  listed := hat.listed.trans (iff_of_eq (congrArg (· = true) hlisted))
  count _ := by
    have hcount : ((m.setCount i n).setDepth i d).nReaders i = n := Function.update_self ..
    have hdepth : ((m.setCount i n).setDepth i d).depth i = d := Function.update_self ..
    rw [hcount, hdepth, hn]
  idle := nofun
  writes hw := (hkeeps hw).writes (hat.writes (hwriting ▸ hw))
  body := trivial

theorem setCount_self : m.setCount i (m.nReaders i) = m := by
  simp [Mem.setCount]

/-! ### The list of a reader that joins it -/

theorem cells_setNext (v : Option ι) :
    cells (m.setNext i v) = Function.update (cells m) (next i) v := by
  funext d
  cases d with
  | head x => simp [cells, Mem.setNext]
  | next a => simp [cells, Mem.setNext, Function.update_apply]

/-- A reader that is not in the list may get to know one that is. -/
theorem Listed.setNext (h : Listed m) (hi : i ∉ m.list) (v : Option ι) :
    Listed (m.setNext i v) where
  nodup := h.nodup
  linked := by
    rw [cells_setNext]
    exact h.linked.update (by simp) (Chain.outside_next hi)
  back := h.back

@[simp] theorem setPreviousOf_list (o v : Option ι) : (m.setPreviousOf o v).list = m.list := by
  unfold Mem.setPreviousOf
  split <;> rfl

@[simp] theorem setPreviousOf_next (o v : Option ι) : (m.setPreviousOf o v).next = m.next := by
  unfold Mem.setPreviousOf
  split <;> rfl

@[simp] theorem setPreviousOf_readers (o v : Option ι) :
    (m.setPreviousOf o v).readers = m.readers := by
  unfold Mem.setPreviousOf
  split <;> rfl

theorem cells_setPreviousOf (o v : Option ι) : cells (m.setPreviousOf o v) = cells m := by
  funext d
  cases d <;> simp [cells]

theorem setPreviousOf_previous {o : Option ι} {r : ι} (hr : o ≠ some r) (v : Option ι) :
    (m.setPreviousOf o v).previous r = m.previous r := by
  cases o with
  | none => rfl
  | some a => exact Function.update_of_ne (fun hra => hr (congrArg some hra.symm)) ..

/-- The first one of some elements gets to know another cell. -/
theorem back_rejoin {d : Loc Unit ι} {l : List ι} (hl : l.Nodup)
    (h : Back (fun r => before (m.previous r)) d l) (v : Option ι) :
    Back (fun r => before ((m.setPreviousOf l.head? v).previous r)) (before v) l := by
  cases l with
  | nil => trivial
  | cons b l =>
    have hb : b ∉ l := (List.nodup_cons.mp hl).1
    refine ⟨congrArg before (Function.update_self ..), h.2.congr fun r hr => ?_⟩
    exact congrArg before (Function.update_of_ne (fun hrb : r = b => hb (hrb ▸ hr)) ..)

theorem Listed.link (h : Listed m) (hnext : m.next i = m.readers) :
    Joining i (m.setPreviousOf (m.next i) (some i)) := by
  have hhead : m.next i = m.list.head? := hnext.trans (linked_head h.linked)
  refine ⟨?_, ?_, ?_, ?_⟩
  · rw [setPreviousOf_list]
    exact h.nodup
  · rw [cells_setPreviousOf, setPreviousOf_list]
    exact h.linked
  · rw [setPreviousOf_list, hhead]
    exact back_rejoin h.nodup h.back (some i)
  · rw [setPreviousOf_next, setPreviousOf_readers, hnext]

omit [DecidableEq ι] in
theorem Joining.insert (h : Joining i m) (hi : i ∉ m.list) (hprevious : m.previous i = none) :
    Listed (m.insert i) where
  nodup := List.nodup_cons.mpr ⟨hi, h.nodup⟩
  linked := ⟨rfl, h.linked.copy h.next fun _ _ => rfl⟩
  back := ⟨congrArg before hprevious, h.back⟩

/-! ### The list of a reader that leaves it -/

theorem Listed.unlink (h : Listed m) (hi : i ∈ m.list) :
    Leaving i (m.setPreviousOf (m.next i) (m.previous i)) := by
  obtain ⟨l₁, l₂, hl⟩ := List.append_of_mem hi
  have hlinked := h.linked
  have hback := h.back
  have hnodup := h.nodup
  rw [hl] at hlinked hback hnodup
  obtain ⟨-, hnodup₂, hdisj⟩ := List.nodup_append.mp hnodup
  obtain ⟨hi₂, hnodup₂⟩ := List.nodup_cons.mp hnodup₂
  obtain ⟨hback₁, -, hback₂⟩ := CkList.back_append.mp hback
  have hnext : m.next i = l₂.head? := linked_head (d := next i) (Chain.linked_append.mp hlinked).2.2
  have hbefore : before (m.previous i) = endFrom (head ()) l₁ := hback.cell
  -- the reader whose field is stored to is not this one, and not one before it
  have hother : ∀ r, r ∉ l₂ → (m.setPreviousOf l₂.head? (m.previous i)).previous r = m.previous r :=
    fun r hr => setPreviousOf_previous (fun hhead => hr (List.mem_of_mem_head? hhead)) _
  refine ⟨?_, ?_, l₁, l₂, ?_, ?_, ?_⟩
  · rw [setPreviousOf_list]
    exact h.nodup
  · rw [cells_setPreviousOf, setPreviousOf_list]
    exact h.linked
  · rw [setPreviousOf_list, hl]
  · rw [hnext, hother i hi₂]
    exact hbefore
  · rw [hnext]
    refine CkList.back_append.mpr ⟨hback₁.congr fun r hr => congrArg before (hother r ?_), ?_⟩
    · exact fun hr₂ => hdisj r hr r (List.mem_cons_of_mem i hr₂) rfl
    · rw [← hbefore]
      exact back_rejoin hnodup₂ hback₂ (m.previous i)

theorem cells_remove :
    cells (m.remove i) = Function.update (cells m) (before (m.previous i)) (m.next i) := by
  funext d
  unfold Mem.remove
  cases m.previous i with
  | none =>
    cases d with
    | head x => simp [cells, before]
    | next a => simp [cells, before]
  | some b =>
    cases d with
    | head x => simp [cells, before, Mem.setNext]
    | next a => simp [cells, before, Mem.setNext, Function.update_apply]

@[simp] theorem remove_list : (m.remove i).list = m.list.erase i := by
  unfold Mem.remove
  split <;> rfl

@[simp] theorem remove_previous : (m.remove i).previous = m.previous := by
  unfold Mem.remove
  split <;> rfl

theorem Leaving.remove (h : Leaving i m) : Listed (m.remove i) := by
  obtain ⟨l₁, l₂, hl, hbefore, hback⟩ := h.split
  have hlinked := h.linked
  have hnodup := h.nodup
  rw [hl] at hlinked hnodup
  have hi₁ : i ∉ l₁ := fun hmem =>
    (List.nodup_append.mp hnodup).2.2 i hmem i List.mem_cons_self rfl
  have herase : (m.remove i).list = l₁ ++ l₂ := by
    rw [remove_list, hl, List.erase_append_right _ hi₁, List.erase_cons_head]
  refine ⟨?_, ?_, ?_⟩ <;> rw [herase]
  · exact (List.nodup_cons.mp (List.nodup_middle.mp hnodup)).2
  · rw [cells_remove, hbefore]
    exact hlinked.unlink (Chain.outside_head () _) hnodup
  · rw [remove_previous]
    exact hback

/-! ### Stores of the thread to which the list belongs -/

/-- What the stores to the list leave as it is. -/
structure Edit (m m' : Mem ι) : Prop where
  writer : m'.writer = m.writer
  owner : m'.owner = m.owner
  depth : m'.depth = m.depth
  nReaders : m'.nReaders = m.nReaders

theorem edit_setPreviousOf (o v : Option ι) : Edit m (m.setPreviousOf o v) := by
  unfold Mem.setPreviousOf
  split <;> exact ⟨rfl, rfl, rfl, rfl⟩

theorem edit_remove : Edit m (m.remove i) := by
  unfold Mem.remove
  split <;> exact ⟨rfl, rfl, rfl, rfl⟩

omit [DecidableEq ι] in
theorem Edit.inv (he : Edit m m') (hi : Inv m) (howner : m.owner = some i)
    (hlist : ∀ r, r ∉ m'.list → r ∉ m.list ∨ m.depth r = 0) : Inv m' where
  writer := by rw [he.writer, he.owner, hi.writer]
  free hnone := by
    rw [he.owner, howner] at hnone
    cases hnone
  depth r hr := by
    rw [he.depth]
    rcases hlist r hr with hr | hr
    · exact hi.depth r hr
    · exact hr
  count r hr := by
    rw [he.nReaders] at hr
    rw [he.depth]
    exact hi.count r hr

omit [DecidableEq ι] in
theorem Edit.frame (he : Edit m m') (howner : m.owner = some i) (hj : j ≠ i)
    (hlisted : j ∈ m'.list ↔ j ∈ m.list) (hprevious : j ∉ m.list → m'.previous j = m.previous j) :
    Frame j m m' where
  owner := by rw [he.owner]
  depth := by rw [he.depth]
  listed := hlisted
  nReaders := by rw [he.nReaders]
  previous := hprevious
  keeps hown := absurd (Option.some.inj (hown.symm.trans howner)) hj

omit [DecidableEq ι] in
/-- The thread goes on with the list. -/
theorem Edit.at (he : Edit m m') (hat : At few i m pc) (hbusy : pc.busy = true)
    (hbusy' : pc'.busy = true) (hheld : pc'.held = pc.held)
    (hlisted : i ∈ m'.list ↔ pc'.listed = true)
    (hcount : pc'.Counted → m.nReaders i = m.depth i % 2 ^ 32) (hbody : Body few i m' pc') :
    At few i m' pc' := by
  have hidle := hat.idle hbusy
  refine ⟨?_, ?_, hlisted, fun hc => ?_, fun _ => hheld ▸ hidle, fun hw => ?_, hbody⟩
  · have howner := hat.owner.mpr (by rw [Pc.owns, hbusy, Bool.true_or])
    rw [he.owner]
    exact iff_of_true howner (by rw [Pc.owns, hbusy', Bool.true_or])
  · rw [he.depth, hheld]
    exact hat.depth
  · rw [he.nReaders, he.depth]
    exact hcount hc
  · rw [hheld, hidle] at hw
    cases hw

/-! ## Steps -/

omit [DecidableEq ι] in
/-- The thread leaves the list to others. -/
theorem At.unlocked (hat : At few i m pc) {h' : Held}
    (hidle : h'.writing = false) (hheld : h'.depth = pc.held.depth)
    (hlisted : pc.listed = h'.registered)
    (hcount : h'.registered = true → m.nReaders i = m.depth i % 2 ^ 32) :
    At few i m.disown (.outside h') where
  owner := iff_of_false nofun (by simp [Pc.owns, Pc.busy, Pc.held, hidle])
  depth := hheld ▸ hat.depth
  listed := hat.listed.trans (iff_of_eq (congrArg (· = true) hlisted))
  count := hcount
  idle := nofun
  writes hw := absurd (hidle.symm.trans hw) Bool.false_ne_true
  body := trivial

omit [DecidableEq ι] in
theorem keeps_of_free (hfree : m.owner = none) (j : ι) : m.owner = some j → Keeps m m' :=
  fun hj => absurd (hfree.symm.trans hj) (Option.some_ne_none j).symm

theorem own_step (hfew : Few few i m pc) (hi : Inv m) (hat : At few i m pc) :
    Inv (act i m pc).1 ∧ At few i (act i m pc).1 (act i m pc).2 := by
  have hbody := hat.body
  cases pc with
  | outside h => exact ⟨hi, hat⟩
  | fas u h =>
    simp only [act]
    split
    case isTrue =>
      refine ⟨hi, ?_⟩
      cases hspend : u.spend with
      | none => exact hat.stay rfl rfl rfl id Bool.false_ne_true.elim trivial
      | some u' => exact hat.stay rfl rfl rfl id Bool.false_ne_true.elim (hbody.spend hspend)
    case isFalse hfree =>
      have hnone := hi.owner_eq_none hfree
      have hidle : h.writing = false := by
        cases hwriting : h.writing with
        | false => rfl
        | true =>
          have howner := hat.owner.mpr (Pc.owns_of_writing hwriting)
          cases hnone.symm.trans howner
      have hlisted := hi.free hnone
      refine ⟨hi.own, iff_of_true rfl rfl, hat.depth, hat.listed, hat.count, fun _ => hidle,
        fun hw => absurd (hidle.symm.trans hw) Bool.false_ne_true, ?_,
        hlisted.nodup, hlisted.linked, hlisted.back⟩
      cases u <;> exact hbody
  | loadReaders u h =>
    obtain ⟨hready, hl⟩ := hbody
    exact ⟨hi, hat.visit rfl rfl rfl hready hl (List.nil_append m.list).symm
      (fun _ _ hr => by cases hr) (linked_head hl.linked) id⟩
  | loadCount u c h =>
    obtain ⟨hready, hl, l₁, l₂, hsplit, hquiet⟩ := hbody
    simp only [act]
    refine ⟨hi, ?_⟩
    split
    case isTrue =>
      cases hspend : u.spend with
      | none => exact hat.stay rfl rfl rfl id (fun _ => rfl) hl
      | some u' =>
        exact hat.stay rfl rfl rfl id (fun _ => rfl)
          ⟨hready.spend hspend, hl, l₁, l₂, hsplit, hquiet⟩
    case isFalse hzero =>
      exact hat.stay rfl rfl rfl id (fun _ => rfl)
        ⟨hready, hl, l₁, l₂, hsplit, hquiet.concat hi hfew (not_not.mp hzero)⟩
  | loadNext u c h =>
    obtain ⟨hready, hl, l₁, l₂, hsplit, hquiet⟩ := hbody
    have hlinked := hl.linked
    rw [hsplit] at hlinked
    have hnext : m.next c = l₂.head? :=
      linked_head (d := next c) (Chain.linked_append.mp hlinked).2.2
    exact ⟨hi, hat.visit rfl rfl rfl hready hl (by rw [hsplit, List.append_assoc]; rfl) hquiet
      hnext id⟩
  | giveUp h =>
    have hidle := hat.idle rfl
    exact ⟨hi.disown hbody, hat.unlocked hidle rfl rfl hat.count⟩
  | unlock h =>
    exact ⟨hi.disown (hat.writes hbody).1, hat.unlocked rfl rfl rfl hat.count⟩
  | regCount h =>
    have hout : i ∉ m.list := hat.out hbody
    have hzero := hi.depth i hout
    refine ⟨hi.setCount fun _ => by simp [hzero], hat.owner, hat.depth, hat.listed, fun hc => ?_,
      Bool.false_ne_true.elim, fun hw => (keeps_setCount 0).writes (hat.writes hw), hbody,
      Function.update_self ..⟩
    exact absurd (hbody.symm.trans hc) Bool.false_ne_true
  | regPrevious h =>
    obtain ⟨hnew, hcount⟩ := hbody
    have hkeeps := keeps_setPrevious (hat.out hnew) none
    refine ⟨⟨hi.writer, fun hnone => hkeeps.listed (hi.free hnone), hi.depth, hi.count⟩, hat.owner,
      hat.depth, hat.listed, hat.count, Bool.false_ne_true.elim,
      fun hw => hkeeps.writes (hat.writes hw), hnew, hcount, Function.update_self ..⟩
  | regNext h =>
    obtain ⟨hready, hl⟩ := hbody
    have hout : i ∉ m.list := hat.out hready.1
    have hedit : Edit m (m.setNext i m.readers) := ⟨rfl, rfl, rfl, rfl⟩
    refine ⟨hedit.inv hi (hat.owner.mpr rfl) fun _ => .inl, hedit.at hat rfl rfl rfl hat.listed
      hat.count ⟨hready, hl.setNext hout _, Function.update_self ..⟩⟩
  | regLink h =>
    obtain ⟨hready, hl, hnext⟩ := hbody
    have hout : i ∉ m.list := hat.out hready.1
    have hedit := edit_setPreviousOf (m := m) (m.next i) (some i)
    have hlist := setPreviousOf_list (m := m) (m.next i) (some i)
    have hne : m.next i ≠ some i := by
      rw [hnext, show m.readers = m.list.head? from linked_head hl.linked]
      exact fun hhead => hout (List.mem_of_mem_head? hhead)
    have hready' : Use.register.Ready i (m.setPreviousOf (m.next i) (some i)) h :=
      ⟨hready.1, (congrFun hedit.nReaders i).trans hready.2.1,
        (setPreviousOf_previous hne _).trans hready.2.2⟩
    exact ⟨hedit.inv hi (hat.owner.mpr rfl) fun _ hr => .inl (hlist ▸ hr),
      hedit.at hat rfl rfl rfl (hlist.symm ▸ hat.listed) hat.count ⟨hready', hl.link hnext⟩⟩
  | regHead h =>
    obtain ⟨hready, hjoining⟩ := hbody
    have hout : i ∉ m.list := hat.out hready.1
    have hedit : Edit m (m.insert i) := ⟨rfl, rfl, rfl, rfl⟩
    have hdepth : h.depth = 0 := hat.depth.symm.trans (hi.depth i hout)
    exact ⟨hedit.inv hi (hat.owner.mpr rfl) fun _ hr =>
        .inl fun hmem => hr (List.mem_cons_of_mem i hmem),
      hedit.at hat rfl rfl rfl (iff_of_true List.mem_cons_self rfl) hat.count
        ⟨⟨hdepth, hready.2.1⟩, hjoining.insert hout hready.2.2⟩⟩
  | regUnlock h =>
    obtain ⟨⟨hdepth, hcount⟩, hl⟩ := hbody
    refine ⟨hi.disown hl, hat.unlocked (hat.idle rfl) rfl rfl fun _ => ?_⟩
    rw [hcount, hat.depth, Pc.held, hdepth, Nat.zero_mod]
  | unregPrevious h =>
    obtain ⟨hready, hl⟩ := hbody
    have hedit := edit_setPreviousOf (m := m) (m.next i) (m.previous i)
    have hlist := setPreviousOf_list (m := m) (m.next i) (m.previous i)
    exact ⟨hedit.inv hi (hat.owner.mpr rfl) fun _ hr => .inl (hlist ▸ hr),
      hedit.at hat rfl rfl rfl (hlist.symm ▸ hat.listed) hat.count
        ⟨hready, hl.unlink (hat.listed.mpr hready.1)⟩⟩
  | unregNext h =>
    obtain ⟨hready, hleaving⟩ := hbody
    have hzero : m.depth i = 0 := hat.depth.trans hready.2
    have hedit := edit_remove (m := m) (i := i)
    have hlist : (m.remove i).list = m.list.erase i := remove_list
    refine ⟨hedit.inv hi (hat.owner.mpr rfl) fun r hr => ?_,
      hedit.at hat rfl rfl rfl (iff_of_false ?_ Bool.false_ne_true) hat.count hleaving.remove⟩
    · by_cases hri : r = i
      · exact .inr (hri ▸ hzero)
      · exact .inl fun hmem => hr (hlist ▸ (List.mem_erase_of_ne hri).mpr hmem)
    · rw [hlist]
      exact hleaving.nodup.not_mem_erase
  | unregUnlock h =>
    exact ⟨hi.disown hbody, hat.unlocked (hat.idle rfl) rfl rfl Bool.false_ne_true.elim⟩
  | readTest b h =>
    have hcount := hat.count hbody
    simp only [act]
    refine ⟨hi, ?_⟩
    split
    case isTrue hpos =>
      exact hat.stay rfl rfl rfl id Bool.false_ne_true.elim ⟨hbody, Nat.ne_of_gt hpos⟩
    case isFalse hzero =>
      refine hat.stay rfl rfl rfl id Bool.false_ne_true.elim ⟨hbody, ?_⟩
      rw [← show m.depth i = h.depth from hat.depth, ← hcount]
      omega
  | readNest h =>
    obtain ⟨hold, hne⟩ := hbody
    have hmem : i ∈ m.list := hat.listed.mpr hold
    have hdepth : m.depth i = h.depth := hat.depth
    have hcount : m.nReaders i = h.depth % 2 ^ 32 := (hat.count hold).trans (by rw [hdepth])
    have hinc : Counter.inc (2 ^ 32) (m.nReaders i) = (h.depth + 1) % 2 ^ 32 := by
      rw [hcount, Counter.inc_mod]
    refine ⟨hi.reads hmem fun hz => hinc.symm.trans hz, hat.reads rfl rfl rfl rfl hinc fun _ =>
      keeps_reads fun hzero => ?_⟩
    rw [hcount, ← hdepth, hzero] at hne
    exact absurd rfl hne
  | readWriter b h =>
    simp only [act]
    refine ⟨hi, ?_⟩
    split
    case isTrue =>
      cases hspend : b.spend with
      | none => exact hat.stay rfl rfl rfl id Bool.false_ne_true.elim trivial
      | some b' => exact hat.stay rfl rfl rfl id Bool.false_ne_true.elim hbody
    case isFalse => exact hat.stay rfl rfl rfl id Bool.false_ne_true.elim hbody
  | readStore b h =>
    exact ⟨hi.setCount Nat.one_ne_zero.elim, hat.owner, hat.depth, hat.listed, False.elim,
      Bool.false_ne_true.elim,
      fun hw => (keeps_setCount 1).writes (hat.writes hw), hbody, Function.update_self ..⟩
  | readCheck b h =>
    obtain ⟨⟨hold, hdepth⟩, hone⟩ := hbody
    simp only [act]
    split
    case isTrue hfree =>
      have hnone := hi.owner_eq_none (hfree.trans_ne Bool.false_ne_true)
      have hn : m.nReaders i = (h.depth + 1) % 2 ^ 32 := by omega
      have hinv := hi.reads (n := m.nReaders i) (d := h.depth + 1) (hat.listed.mpr hold)
        fun hz => absurd (hone.symm.trans hz) Nat.one_ne_zero
      have hat' : At few i ((m.setCount i (m.nReaders i)).setDepth i (h.depth + 1))
          (.outside h.enter) :=
        hat.reads rfl rfl rfl rfl hn fun hw => keeps_of_free hnone i (hat.owner.mpr hw)
      rw [setCount_self] at hinv hat'
      exact ⟨hinv, hat'⟩
    case isFalse =>
      exact ⟨hi, hat.stay rfl rfl rfl False.elim Bool.false_ne_true.elim ⟨⟨hold, hdepth⟩, hone⟩⟩
  | readBack b h =>
    obtain ⟨⟨hold, hdepth⟩, -⟩ := hbody
    have hzero : m.depth i % 2 ^ 32 = 0 := (congrArg (· % 2 ^ 32) hat.depth).trans hdepth
    have hself : (m.setCount i 0).nReaders i = 0 := Function.update_self ..
    simp only [act]
    refine ⟨hi.setCount fun _ => hzero, ?_⟩
    cases hspend : b.spend with
    | none => exact ⟨hat.owner, hat.depth, hat.listed, fun _ => hself.trans hzero.symm,
        Bool.false_ne_true.elim, fun hw => (keeps_setCount 0).writes (hat.writes hw), trivial⟩
    | some b' => exact ⟨hat.owner, hat.depth, hat.listed, fun _ => hself.trans hzero.symm,
        Bool.false_ne_true.elim, fun hw => (keeps_setCount 0).writes (hat.writes hw), hold, hdepth⟩
  | readUnlock h =>
    obtain ⟨hold, hpos⟩ := hbody
    obtain ⟨d, hd⟩ := Nat.exists_eq_add_of_lt hpos
    have hdepth : m.depth i = h.depth := hat.depth
    have hcount : m.nReaders i = h.depth % 2 ^ 32 := (hat.count hold).trans (by rw [hdepth])
    have hdec : Counter.dec (2 ^ 32) (m.nReaders i) = (h.depth - 1) % 2 ^ 32 := by
      rw [hcount, hd, Nat.zero_add, Counter.dec_mod, Nat.add_sub_cancel]
    refine ⟨hi.reads (hat.listed.mpr hold) fun hz => hdec.symm.trans hz,
      hat.reads rfl rfl rfl rfl hdec fun _ => keeps_reads fun hzero => ?_⟩
    omega

omit [DecidableEq ι] in
theorem frame_refl (j : ι) (m : Mem ι) : Frame j m m :=
  ⟨.rfl, rfl, .rfl, rfl, fun _ => rfl, fun _ => ⟨rfl, rfl, rfl, fun _ _ => rfl, fun _ => id⟩⟩

omit [DecidableEq ι] in
/-- The lock is free after the step. -/
theorem frame_disown (howner : m.owner = some i) (hj : j ≠ i) : Frame j m m.disown := by
  have hne : m.owner ≠ some j := fun hown => hj (Option.some.inj (hown.symm.trans howner))
  exact ⟨iff_of_false nofun hne, rfl, .rfl, rfl, fun _ => rfl, fun hown => absurd hown hne⟩

theorem frame_setCount (n : Nat) (hj : j ≠ i) : Frame j m (m.setCount i n) :=
  ⟨.rfl, rfl, .rfl, Function.update_of_ne hj .., fun _ => rfl, fun _ => keeps_setCount n⟩

/-- Only the reader behind the ones that a thread links or unlinks is stored to. -/
theorem frame_setPreviousOf {o : Option ι} (howner : m.owner = some i) (hj : j ≠ i)
    (ho : ∀ r, o = some r → r ∈ m.list) (v : Option ι) : Frame j m (m.setPreviousOf o v) :=
  (edit_setPreviousOf o v).frame howner hj (by rw [setPreviousOf_list])
    fun hout => setPreviousOf_previous (fun hj' => hout (ho j hj')) v

theorem frame_step (hi : Inv m) (hat : At few i m pc) (hj : j ≠ i) :
    Frame j m (act i m pc).1 := by
  have hbody := hat.body
  cases pc with
  | outside h | loadReaders u h | loadCount u c h | loadNext u c h | readTest b h
  | readWriter b h => exact frame_refl j m
  | fas u h =>
    simp only [act]
    split
    case isTrue => exact frame_refl j m
    case isFalse hfree =>
      have hnone := hi.owner_eq_none hfree
      have hne : m.owner ≠ some j := hnone.trans_ne (Option.some_ne_none j).symm
      exact ⟨iff_of_false (fun hij => hj (Option.some.inj hij).symm) hne, rfl, .rfl, rfl,
        fun _ => rfl, fun hown => absurd hown hne⟩
  | giveUp h | regUnlock h | unregUnlock h => exact frame_disown (hat.owner.mpr rfl) hj
  | unlock h => exact frame_disown (hat.owner.mpr (Pc.owns_of_writing hbody)) hj
  | regCount h | readStore b h | readBack b h => exact frame_setCount _ hj
  | regPrevious h =>
    have hkeeps := keeps_setPrevious (hat.out hbody.1) none
    exact ⟨.rfl, rfl, .rfl, rfl, fun _ => Function.update_of_ne hj .., fun _ => hkeeps⟩
  | regNext h =>
    have hedit : Edit m (m.setNext i m.readers) := ⟨rfl, rfl, rfl, rfl⟩
    exact hedit.frame (hat.owner.mpr rfl) hj .rfl fun _ => rfl
  | regLink h =>
    obtain ⟨-, hl, hnext⟩ := hbody
    refine frame_setPreviousOf (hat.owner.mpr rfl) hj (fun r hr => ?_) _
    rw [hnext, show m.readers = m.list.head? from linked_head hl.linked] at hr
    exact List.mem_of_mem_head? hr
  | regHead h =>
    have hedit : Edit m (m.insert i) := ⟨rfl, rfl, rfl, rfl⟩
    refine hedit.frame (hat.owner.mpr rfl) hj ?_ fun _ => rfl
    exact List.mem_cons.trans (or_iff_right hj)
  | unregPrevious h =>
    obtain ⟨hready, hl⟩ := hbody
    refine frame_setPreviousOf (hat.owner.mpr rfl) hj (fun r hr => ?_) _
    obtain ⟨l₁, l₂, hsplit⟩ := List.append_of_mem (hat.listed.mpr hready.1)
    have hlinked := hl.linked
    rw [hsplit] at hlinked
    rw [show m.next i = l₂.head? from
      linked_head (d := next i) (Chain.linked_append.mp hlinked).2.2] at hr
    rw [hsplit]
    exact List.mem_append_right l₁ (List.mem_cons_of_mem i (List.mem_of_mem_head? hr))
  | unregNext h =>
    refine edit_remove.frame (hat.owner.mpr rfl) hj ?_ fun _ => ?_
    · rw [remove_list]
      exact List.mem_erase_of_ne hj
    · exact congrFun remove_previous j
  | readNest h =>
    obtain ⟨hold, hne⟩ := hbody
    refine frame_reads hj fun _ => keeps_reads fun hzero => ?_
    rw [hat.count hold, hzero] at hne
    exact absurd rfl hne
  | readCheck b h =>
    simp only [act]
    split
    case isTrue hfree =>
      have hnone := hi.owner_eq_none (hfree.trans_ne Bool.false_ne_true)
      have hframe : Frame j m ((m.setCount i (m.nReaders i)).setDepth i (h.depth + 1)) :=
        frame_reads hj (keeps_of_free hnone j)
      rwa [setCount_self] at hframe
    case isFalse => exact frame_refl j m
  | readUnlock h =>
    have hdepth : m.depth i = h.depth := hat.depth
    refine frame_reads hj fun _ => keeps_reads fun hzero => ?_
    rw [← hdepth, hzero]

omit [DecidableEq ι] in
/-- A reader that has been let in is in the list. -/
theorem At.mem_list (hat : At few i m pc) (hi : Inv m) (hdepth : 0 < pc.held.depth) :
    i ∈ m.list := by
  by_contra hout
  have hzero := hat.depth.symm.trans (hi.depth i hout)
  exact absurd hzero (Nat.ne_of_gt hdepth)

theorem invariant : Threads.Invariant (Step (ι := ι)) (Few few) Inv (At few) where
  own hstep hfew hi hat := by
    cases hstep with
    | act => exact own_step hfew hi hat
    | writeLock | writeTrylock => exact ⟨hi, hat.stay rfl rfl rfl id nofun trivial⟩
    | writeUnlock hwriting => exact ⟨hi, hat.stay rfl rfl rfl id nofun hwriting⟩
    | readRegister hnew => exact ⟨hi, hat.stay rfl rfl rfl id nofun hnew⟩
    | readUnregister hold hdepth => exact ⟨hi, hat.stay rfl rfl rfl id nofun ⟨hold, hdepth⟩⟩
    | readLock hold | readTrylock hold => exact ⟨hi, hat.stay rfl rfl rfl id nofun hold⟩
    | readUnlock hdepth =>
      have hold := hat.listed.mp (hat.mem_list hi hdepth)
      exact ⟨hi, hat.stay rfl rfl rfl id nofun ⟨hold, hdepth⟩⟩
  other hstep _ hi hat _ _ hj hother := by
    cases hstep with
    | act => exact (frame_step hi hat hj).mono hother
    | _ => exact hother

/-! ## Every run -/

omit [DecidableEq ι] in
/-- While no reader is registered or taken out the list is in order. -/
theorem At.ordered (hat : At few i m pc) (howner : m.owner = some i) (hchanges : ¬ pc.Changes) :
    Listed m := by
  have hbody := hat.body
  have howns := hat.owner.mp howner
  rw [Pc.owns, Bool.or_eq_true] at howns
  rcases howns with hbusy | hwriting
  · cases pc with
    | loadReaders u h => exact hbody.2
    | loadCount u c h | loadNext u c h => exact hbody.2.1
    | giveUp h => exact hbody
    | regNext h | regLink h | regHead h | regUnlock h | unregPrevious h | unregNext h
    | unregUnlock h => exact absurd trivial hchanges
    | _ => exact absurd hbusy Bool.false_ne_true
  · exact (hat.writes hwriting).1

omit [DecidableEq ι] in
theorem Pc.listed_eq (hchanges : ¬ pc.Changes) : pc.listed = pc.held.registered := by
  cases pc with
  | regUnlock h | unregUnlock h => exact absurd trivial hchanges
  | _ => rfl

/-- A state in which the writers exclude each other, `writer` is set for the thread that has set it
and for nobody else, no call has left a count behind, and the list is in order unless somebody
registers a reader or takes one out. -/
structure Sound (s : Threads.System (Mem ι) (Pc ι) ι) : Prop where
  writers : ∀ i j, (s.pc i).held.writing = true → (s.pc j).held.writing = true → i = j
  writer : s.mem.writer = true ↔ ∃ i, (s.pc i).owns = true
  count : ∀ i h, s.pc i = .outside h → h.registered = true →
    s.mem.nReaders i = h.depth % 2 ^ 32
  list : (∀ i, ¬ (s.pc i).Changes) →
    Listed s.mem ∧ ∀ i, i ∈ s.mem.list ↔ (s.pc i).held.registered = true

/-- What holds of every run holds of the runs in which the readers are let in a few times. -/
theorem reachable_at {nReaders : ι → Nat} {previous next : ι → Option ι}
    {s : Threads.System (Mem ι) (Pc ι) ι}
    (hr : Threads.System.Reachable Step (Few few) (start nReaders previous next) s) :
    Inv s.mem ∧ ∀ i, At few i s.mem (s.pc i) := by
  obtain ⟨hinv, hall⟩ := invariant.reachable hr (fun _ _ _ => Nat.two_pow_pos 32)
    (inv_start nReaders previous next) (at_start few nReaders previous next)
  exact ⟨hinv, fun i => (hall i).2⟩

omit [DecidableEq ι] in
theorem sound {s : Threads.System (Mem ι) (Pc ι) ι} (hinv : Inv s.mem)
    (hat : ∀ i, At few i s.mem (s.pc i)) : Sound s := by
  refine ⟨fun i j hi hj => ?_, ?_, fun i h hpc hold => ?_, fun hquiet => ⟨?_, fun i => ?_⟩⟩
  · have howner := (hat i).owner.mpr (Pc.owns_of_writing hi)
    rw [(hat j).owner.mpr (Pc.owns_of_writing hj)] at howner
    exact (Option.some.inj howner).symm
  · rw [hinv.writer, Option.ne_none_iff_exists']
    exact exists_congr fun i => (hat i).owner
  · have hi := hat i
    rw [hpc] at hi
    rw [hi.count hold, hi.depth]
    rfl
  · cases howner : s.mem.owner with
    | none => exact hinv.free howner
    | some i => exact (hat i).ordered howner (hquiet i)
  · rw [(hat i).listed, Pc.listed_eq (hquiet i)]

/-- In a big-reader lock the writers exclude each other, failed calls leave nothing behind, and the
list of the readers is in order. While no reader is let in as often as `n_readers` has values,
nobody is let in next to a writer. -/
theorem brlock_excludes (nReaders : ι → Nat) (previous next : ι → Option ι) :
    (∀ s, Threads.System.Reachable Step (fun _ _ _ => True) (start nReaders previous next) s →
      Sound s) ∧
    ∀ s, Threads.System.Reachable Step (Few true) (start nReaders previous next) s →
      ∀ i j, (s.pc i).held.writing = true → (s.pc j).held.depth = 0 := by
  refine ⟨fun s hr => ?_, fun s hr i j hwriting => ?_⟩
  · have hr' : Threads.System.Reachable Step (Few false) (start nReaders previous next) s :=
      hr.map id (fun _ _ _ _ _ h => h) fun _ _ _ _ h => by cases h
    obtain ⟨hinv, hat⟩ := reachable_at hr'
    exact sound hinv hat
  · obtain ⟨hinv, hat⟩ := reachable_at hr
    rw [← (hat j).depth]
    by_cases hj : j ∈ s.mem.list
    · exact ((hat i).writes hwriting).2 rfl j hj
    · exact hinv.depth j hj

/-- A run in which a thread makes `n` more accesses. -/
theorem acts_reachable {ok : ι → Mem ι → Pc ι → Prop} {s₀ s : Threads.System (Mem ι) (Pc ι) ι}
    (hr : Threads.System.Reachable Step ok s₀ s) (i : ι) (n : Nat)
    (good : ∀ l < n + 1, ∀ j, ok j (s.acts act i l).mem ((s.acts act i l).pc j)) :
    Threads.System.Reachable Step ok s₀ (s.acts act i n) :=
  hr.acts i n (fun _ _ _ _ _ _ => .inr .act) good

/-- A new lock and two threads. -/
def pair : Threads.System (Mem Bool) (Pc Bool) Bool :=
  start (fun _ => 0) (fun _ => none) fun _ => none

/-- A writer gives up before a reader that has registered and is let in, and leaves nothing
behind. -/
theorem brlock_excludes_given_up : ∃ s : Threads.System (Mem Bool) (Pc Bool) Bool,
    s.pc true = .outside ⟨true, 1, false⟩ ∧ s.pc false = .outside ⟨false, 0, false⟩ ∧
      s.mem.writer = false ∧ s.mem.list = [true] ∧ Sound s ∧
        ∀ i j, (s.pc i).held.writing = true → (s.pc j).held.depth = 0 := by
  have h₀ : Threads.System.Reachable Step (Few true) pair pair := .refl
  have h₁ := h₀.call true (.readRegister rfl) fun _ _ => by decide +kernel
  have h₂ := acts_reachable h₁ true 8 fun l hl _ _ => by
    interval_cases l <;> decide +kernel
  have h₃ := h₂.call true (.readLock rfl) fun _ _ => by decide +kernel
  have h₄ := acts_reachable h₃ true 4 fun l hl _ _ => by
    interval_cases l <;> decide +kernel
  have h₅ := h₄.call false (.writeTrylock 2) fun _ _ => by decide +kernel
  have h₆ := acts_reachable h₅ false 5 fun l hl _ _ => by
    interval_cases l <;> decide +kernel
  have hr : Threads.System.Reachable Step (fun _ _ _ => True) pair _ :=
    h₆.map id (fun _ _ _ _ _ h => h) fun _ _ _ _ => trivial
  exact ⟨_, by decide +kernel, by decide +kernel, by decide +kernel, by decide +kernel,
    (brlock_excludes _ _ _).1 _ hr, (brlock_excludes _ _ _).2 _ h₆⟩

/-! ## A reader that is let in as often as the word has values -/

/-- A thread with a registered reader that has been let in `n` times, and one that does nothing. -/
def nested (n : Nat) : Threads.System (Mem Bool) (Pc Bool) Bool where
  mem := ⟨some true, false, fun r => if r then n % 2 ^ 32 else 0, fun _ => none, fun _ => none,
    [true], none, fun r => if r then n else 0⟩
  pc r := .outside (if r then ⟨true, n, false⟩ else ⟨false, 0, false⟩)

/-- Two states of the two threads are the same if the words are, and what is known of each. -/
theorem pair_ext {s t : Threads.System (Mem Bool) (Pc Bool) Bool}
    (hwords : s.mem.readers = t.mem.readers ∧ s.mem.writer = t.mem.writer ∧
      s.mem.list = t.mem.list ∧ s.mem.owner = t.mem.owner)
    (hreaders : ∀ r, s.mem.nReaders r = t.mem.nReaders r ∧ s.mem.previous r = t.mem.previous r ∧
      s.mem.next r = t.mem.next r ∧ s.mem.depth r = t.mem.depth r)
    (hpc : ∀ r, s.pc r = t.pc r) : s = t := by
  obtain ⟨⟨readers, writer, nReaders, previous, next, list, owner, depth⟩, pc⟩ := s
  obtain ⟨rfl, rfl, rfl, rfl⟩ := hwords
  obtain rfl := funext fun r => (hreaders r).1
  obtain rfl := funext fun r => (hreaders r).2.1
  obtain rfl := funext fun r => (hreaders r).2.2.1
  obtain rfl := funext fun r => (hreaders r).2.2.2
  obtain rfl := funext hpc
  rfl

theorem nested_one : Threads.System.Reachable Step (fun _ _ _ => True) pair (nested 1) := by
  have h₀ : Threads.System.Reachable Step (fun _ _ _ => True) pair pair := .refl
  have h₁ := h₀.call true (.readRegister rfl) fun _ => trivial
  have h₂ := acts_reachable h₁ true 8 fun _ _ _ => trivial
  have h₃ := h₂.call true (.readLock rfl) fun _ => trivial
  have h₄ := acts_reachable h₃ true 4 fun _ _ _ => trivial
  convert h₄ using 1
  exact pair_ext (by decide +kernel) (by decide +kernel) (by decide +kernel)

theorem nested_succ {n : Nat} (hn : 1 ≤ n % 2 ^ 32)
    (hr : Threads.System.Reachable Step (fun _ _ _ => True) pair (nested n)) :
    Threads.System.Reachable Step (fun _ _ _ => True) pair (nested (n + 1)) := by
  have h₁ := hr.call true (p := .readTest .unlimited ⟨true, n, false⟩) (.readLock rfl)
    fun _ => trivial
  have h₂ := acts_reachable h₁ true 2 fun _ _ _ => trivial
  have hstate : ((nested n).call true (.readTest .unlimited ⟨true, n, false⟩)).acts act true 2 =
      nested (n + 1) := by
    simp only [Threads.System.acts, Threads.System.call, act, nested, hn, if_true,
      Function.update_self, Function.update_idem]
    refine pair_ext ⟨rfl, rfl, rfl, rfl⟩ (fun r => ?_) fun r => ?_
    · cases r with
      | false => exact ⟨rfl, rfl, rfl, rfl⟩
      | true => exact ⟨Counter.inc_mod _ _, rfl, rfl, rfl⟩
    · cases r <;> rfl
  rwa [hstate] at h₂

theorem nested_reachable {n : Nat} (hn : n < 2 ^ 32) :
    Threads.System.Reachable Step (fun _ _ _ => True) pair (nested (n + 1)) := by
  induction n with
  | zero => exact nested_one
  | succ n ih =>
    have hpos : 1 ≤ (n + 1) % 2 ^ 32 := by
      rw [Nat.mod_eq_of_lt hn]
      exact Nat.le_add_left 1 n
    exact nested_succ hpos (ih (Nat.lt_of_succ_lt hn))

/-- A reader has been let in as often as `n_readers` has values. A writer finds it not to be counted
and gets in. When the reader leaves for the first time, its count is not zero again. -/
theorem nested_intrudes : ∃ s : Threads.System (Mem Bool) (Pc Bool) Bool,
    Threads.System.Reachable Step (fun _ _ _ => True) pair s ∧
      s.pc false = .outside ⟨false, 0, true⟩ ∧ s.pc true = .outside ⟨true, 2 ^ 32 - 1, false⟩ ∧
        s.mem.nReaders true = 2 ^ 32 - 1 := by
  have h₀ := nested_reachable (n := 2 ^ 32 - 1) (by decide)
  have h₁ := h₀.call false .writeLock fun _ => trivial
  have h₂ := acts_reachable h₁ false 4 fun _ _ _ => trivial
  have h₃ := h₂.call true (p := .readUnlock ⟨true, 2 ^ 32, false⟩) (.readUnlock (by decide))
    fun _ => trivial
  have h₄ := acts_reachable h₃ true 1 fun _ _ _ => trivial
  exact ⟨_, h₄, by decide +kernel, by decide +kernel, by decide +kernel⟩

end ConcurrencyKit.Brlock
