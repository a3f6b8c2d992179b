import ConcurrencyKit.Hclh.Steps

/-!
# At most one thread has a hierarchical CLH lock

A thread that has the lock is the first one in the global queue. What a thread reads from the node
before its own tells it whether it is behind this node in the global queue, too, or leads the
threads that are in the local queue only. A thread takes a node over that no thread in a queue knows
any more.
-/

namespace ConcurrencyKit.Hclh

open Line (Linked endOf)

variable {ι κ : Type} [DecidableEq κ] {cluster : ι → κ} {id : κ → Int} {m m' : Mem ι κ} {i j : ι}
  {n previous x me : Node ι κ} {p : Pc ι κ}

/-! ## What a thread reads -/

/-- A thread before which no other one has been in the local queue leads its cluster. -/
theorem Waits.leads (hi : Inv cluster id m) (h : Waits cluster i m previous)
    (hown : m.previous (m.node i) = some (m.localPrev i)) (hnone : m.previous previous = none) :
    Leads cluster i m := by
  have hprev := h.prev
  subst hprev
  refine ⟨?_, hown, .inr hnone⟩
  rcases h.mem with hmem | hmem
  · exact absurd hnone (hi.follower i hmem h.head).2.2
  · have hline := (Line.linked_append.mp (hi.localLine (cluster i))).2
    rcases hline.prev_cases hmem with ⟨l, hl, -⟩ | ⟨k, hk, heq⟩
    · rw [hl, List.head?_cons]
    · rw [heq] at hnone
      exact absurd hnone (hi.ready _ k (mem_pending.mpr (.inr hk))).2.2

/-- The thread before has released the lock. -/
theorem Waits.decided_of_wait (hi : Inv cluster id m) (h : Waits cluster i m previous)
    (hown : m.previous (m.node i) = some (m.localPrev i)) (hprevious : m.previous previous ≠ none)
    (hwait : m.wait previous ≠ true) : Decided cluster i m previous := by
  refine ⟨h, hown, ?_⟩
  have hprev := h.prev
  subst hprev
  rcases h.mem with hmem | hmem
  · obtain ⟨hglobal, hsplice, -⟩ := hi.follower i hmem h.head
    exact .inl ⟨hi.order_first hmem (hglobal ▸ hwait), hsplice⟩
  · obtain ⟨l, hl, -⟩ := hi.pending_first (pending_of (.inr hmem)) hwait
    -- no thread of the cluster is in the global queue, since this one would come after it
    have hcommitted : committed cluster m (cluster i) = [] := by
      rcases List.eq_nil_or_concat' (committed cluster m (cluster i)) with hnil | ⟨l', k, hl'⟩
      · exact hnil
      · cases hc : committed cluster m (cluster i) with
        | nil => rfl
        | cons k' l'' =>
          rw [pending, hc, List.cons_append, List.cons.injEq] at hl
          have hk' : k' ∈ committed cluster m (cluster i) := hc ▸ List.mem_cons_self
          exact absurd (hl.1 ▸ (mem_committed.mp hk').1) (hi.todo_cluster _ i hmem).2
    rw [pending, hcommitted, List.nil_append] at hl
    have hfirst : (m.todo (cluster i)).head? = some i := by rw [hl, List.head?_cons]
    refine .inr ⟨hfirst, ?_⟩
    have hedge := hi.localPrev_first hfirst
    rcases hi.marked (cluster i) with hnone | hsplice | ⟨k, hk⟩
    · exact absurd (hedge ▸ hnone) hprevious
    · exact hedge ▸ hsplice
    · obtain ⟨j, hj, hnode⟩ := hi.marking_node hk
      rw [hedge, ← hnode] at hwait
      exact absurd (hi.ready _ j (pending_of (.inl hj))).1 hwait

/-- The thread before is the last one of those in the global queue. -/
theorem Waits.decided_of_splice (hi : Inv cluster id m) (h : Waits cluster i m previous)
    (hown : m.previous (m.node i) = some (m.localPrev i)) (hsplice : m.splice previous ≠ false) :
    Decided cluster i m previous := by
  refine ⟨h, hown, ?_⟩
  have hprev := h.prev
  subst hprev
  rcases h.mem with hmem | hmem
  · exact absurd (hi.follower i hmem h.head).2.1 hsplice
  · have hline := (Line.linked_append.mp (hi.localLine (cluster i))).2
    rcases hline.prev_cases hmem with ⟨l, hl, -⟩ | ⟨k, hk, heq⟩
    · exact .inr ⟨by rw [hl, List.head?_cons], by simpa using hsplice⟩
    · rw [heq] at hsplice
      exact absurd (hi.unspliced _ k hk) hsplice

/-- The identifiers of the clusters agree. -/
theorem Waits.clusterId (hi : Inv cluster id m) (h : Waits cluster i m previous) :
    m.clusterId previous = id (cluster i) ∧ m.clusterId (m.node i) = id (cluster i) := by
  have hmem := pending_of h.mem
  exact ⟨h.prev ▸ (hi.home_localPrev hmem).2, (hi.ready _ i hmem).2.1⟩

/-- The tail of the local queue is the node of a thread that is in the local queue only. -/
theorem Leads.localQueue (hi : Inv cluster id m) (h : Leads cluster i m) :
    ∃ j ∈ m.todo (cluster i), m.node j = m.localQueue (cluster i) := by
  obtain ⟨l, hl⟩ := List.head?_eq_some_iff.mp h.first
  rw [hi.localQueue, pending, Line.endOf_append, hl]
  rcases Line.endOf_cases m.node (m.node i) l with heq | ⟨j, hj, heq⟩
  · exact ⟨i, List.mem_cons_self, heq.symm⟩
  · exact ⟨j, List.mem_cons_of_mem i hj, heq.symm⟩

/-! ## Steps -/

variable [DecidableEq ι]

theorem own_step (hi : Inv cluster id m) (h : At cluster id i m p) :
    Inv cluster id (act cluster i m p).1 ∧
      At cluster id i (act cluster i m p).1 (act cluster i m p).2 := by
  obtain ⟨hme, hmarks, hbody⟩ := h
  have hset : ∀ {v : Bool} (f : Node ι κ → Bool) (n : Node ι κ), n ≠ m.node i →
      Function.update f (m.node i) v n = f n := fun f n hn => Function.update_of_ne hn ..
  cases p with
  | idle me => exact ⟨hi, hme, hmarks, hbody⟩
  | setWait me =>
    obtain rfl : me = m.node i := hme
    exact ⟨hi.store hbody (hset _) (fun _ _ => rfl) (fun _ _ => rfl) fun _ _ => rfl, rfl, hmarks,
      ⟨hbody.order, hbody.todo, hbody.head⟩, Function.update_self ..⟩
  | setSplice me =>
    obtain rfl : me = m.node i := hme
    obtain ⟨hout, hwait⟩ := hbody
    exact ⟨hi.store hout (fun _ _ => rfl) (hset _) (fun _ _ => rfl) fun _ _ => rfl, rfl, hmarks,
      ⟨hout.order, hout.todo, hout.head⟩, hwait, Function.update_self ..⟩
  | loadQueue me =>
    obtain ⟨hhome, hid⟩ := hi.home_localQueue (cluster i)
    exact ⟨hi, hme, hmarks, hbody, hhome, hid⟩
  | loadId me tail => exact ⟨hi, hme, hmarks, hbody.1, hbody.2.2⟩
  | setId me v =>
    obtain rfl : me = m.node i := hme
    obtain ⟨⟨hout, hwait, hsplice⟩, rfl⟩ := hbody
    exact ⟨hi.store hout (fun _ _ => rfl) (fun _ _ => rfl)
      (fun n hn => Function.update_of_ne hn ..) fun _ _ => rfl, rfl, hmarks,
      ⟨⟨hout.order, hout.todo, hout.head⟩, hwait, hsplice⟩, Function.update_self ..⟩
  | loadTail me => exact ⟨hi, hme, hmarks, hbody⟩
  | setPrevious me tail =>
    obtain rfl : me = m.node i := hme
    obtain ⟨⟨hout, hwait, hsplice⟩, hid⟩ := hbody
    have hsome : (m.setPrevious (m.node i) tail).previous (m.node i) = some tail :=
      Function.update_self ..
    have hstore : ∀ n, n ≠ m.node i →
        (m.setPrevious (m.node i) tail).previous n = m.previous n := fun n hn =>
      Function.update_of_ne hn ..
    exact ⟨hi.store hout (fun _ _ => rfl) (fun _ _ => rfl) (fun _ _ => rfl) hstore, rfl, hmarks,
      ⟨⟨hout.order, hout.todo, hout.head⟩, hwait, hsplice⟩, hid,
      hsome.trans_ne (Option.some_ne_none _)⟩
  | enter me =>
    obtain rfl : me = m.node i := hme
    obtain ⟨⟨hout, hwait, hsplice⟩, hid, hprevious⟩ := hbody
    have hprev : (m.enter i (cluster i) (m.node i)).localPrev i = m.localQueue (cluster i) :=
      Function.update_self ..
    exact ⟨hi.enter hout ⟨hwait, hid, hprevious⟩ hsplice, rfl, hmarks,
      .inr ((mem_todo_enter m i _ _).mpr (.inr ⟨rfl, rfl⟩)), hout.head, hprev.symm⟩
  | link me previous =>
    obtain rfl : me = m.node i := hme
    refine ⟨hi.link (pending_of hbody.mem), rfl, hmarks, ⟨hbody.mem, hbody.head, hbody.prev⟩, ?_⟩
    exact (Function.update_self ..).trans (congrArg some hbody.prev)
  | check me previous =>
    obtain ⟨hwaits, hown⟩ := hbody
    simp only [act]
    split
    case isTrue hsome => exact ⟨hi, hme, hmarks, ⟨hwaits, hown⟩, hsome⟩
    case isFalse hnone => exact ⟨hi, hme, hmarks, hwaits.leads hi hown (not_not.mp hnone)⟩
  | spinWait me previous =>
    obtain ⟨⟨hwaits, hown⟩, hsome⟩ := hbody
    simp only [act]
    split
    case isTrue => exact ⟨hi, hme, hmarks, ⟨hwaits, hown⟩, hsome⟩
    case isFalse hwait => exact ⟨hi, hme, hmarks, hwaits.decided_of_wait hi hown hsome hwait⟩
  | spinId me previous => exact ⟨hi, hme, hmarks, hbody, (hbody.1.1.clusterId hi).1⟩
  | spinOwn me previous v =>
    obtain rfl : me = m.node i := hme
    obtain ⟨hwaits, rfl⟩ := hbody
    have hid := (hwaits.1.1.clusterId hi).2
    simp only [act]
    rw [if_pos hid.symm]
    exact ⟨hi, rfl, hmarks, hwaits⟩
  | spinSplice me previous =>
    obtain ⟨⟨hwaits, hown⟩, hsome⟩ := hbody
    simp only [act]
    split
    case isTrue => exact ⟨hi, hme, hmarks, ⟨hwaits, hown⟩, hsome⟩
    case isFalse hsplice => exact ⟨hi, hme, hmarks, hwaits.decided_of_splice hi hown hsplice⟩
  | testId me previous => exact ⟨hi, hme, hmarks, hbody, (hbody.waits.clusterId hi).1⟩
  | testOwn me previous v =>
    obtain rfl : me = m.node i := hme
    obtain ⟨hdecided, rfl⟩ := hbody
    have hid := (hdecided.waits.clusterId hi).2
    simp only [act]
    rw [if_pos hid.symm]
    exact ⟨hi, rfl, hmarks, hdecided⟩
  | testSplice me previous =>
    have hprev := hbody.waits.prev
    simp only [act]
    split
    case isTrue hsplice =>
      rcases hbody.cases with ⟨hfirst, -⟩ | ⟨-, htrue⟩
      · exact ⟨hi, hme, hmarks, hfirst, hbody.own⟩
      · exact absurd (hsplice.symm.trans htrue) Bool.false_ne_true
    case isFalse hsplice =>
      rcases hbody.cases with ⟨-, hfalse⟩ | ⟨hnext, htrue⟩
      · exact absurd hfalse hsplice
      · exact ⟨hi, hme, hmarks, hnext, hbody.own, .inl (hprev ▸ htrue)⟩
  | loadLocal me => exact ⟨hi, hme, hmarks, hbody, hbody.localQueue hi⟩
  | swap me localTail =>
    obtain ⟨hleads, hx⟩ := hbody
    obtain ⟨l, hl⟩ := batch_cons (x := localTail) hleads.first
    have hmem : i ∈ (m.swap i (cluster i) localTail).order := by
      rw [order_swap, hl]
      exact List.mem_append_right _ List.mem_cons_self
    exact ⟨hi.swap hleads hx hmarks, hme, Function.update_self .., hmem, hleads.own,
      Function.update_self .., (globalPrev_self m i _ _).symm⟩
  | mark me localTail previous =>
    exact ⟨hi.mark hmarks, hme, Function.update_self .., hbody.mem, hbody.own, hbody.head,
      hbody.prev⟩
  | waitGlobal me previous =>
    simp only [act]
    split
    case isTrue => exact ⟨hi, hme, hmarks, hbody⟩
    case isFalse hwait =>
      exact ⟨hi, hme, hmarks, hi.order_first hbody.mem (hbody.prev ▸ hwait), hbody.own⟩
  | critical me => exact ⟨hi, hme, hmarks, hbody⟩
  | unlock me =>
    obtain rfl : me = m.node i := hme
    exact ⟨hi, rfl, hmarks, hbody⟩
  | release me previous =>
    obtain rfl : me = m.node i := hme
    obtain ⟨hfirst, rfl⟩ := hbody
    have hnode : (m.release i (cluster i) (m.node i) (m.localPrev i)).node i = m.localPrev i :=
      Function.update_self ..
    exact ⟨hi.release hfirst hmarks, hnode.symm, hmarks,
      fun hmem => (mem_order_release hi hfirst hmem).1 rfl,
      fun hmem => (hi.todo_cluster _ i hmem).2 (List.mem_of_head? hfirst),
      Function.update_self ..⟩

theorem other_step {q : Pc ι κ} (hi : Inv cluster id m) (h : At cluster id i m p) (hj : j ≠ i)
    (hq : At cluster id j m q) : At cluster id j (act cluster i m p).1 q := by
  obtain ⟨hme, hmarks, hbody⟩ := h
  have hset : ∀ {v : Bool} (f : Node ι κ → Bool) (n : Node ι κ), n ≠ m.node i →
      Function.update f (m.node i) v n = f n := fun f n hn => Function.update_of_ne hn ..
  have hmono : ∀ {m'}, Frame cluster id j m m' → At cluster id j m' q := fun hf =>
    hf.mono (hi.home_node j) hq
  cases p with
  | idle | loadQueue | loadId | loadTail | check | spinWait | spinId | spinOwn | spinSplice
  | testId | testOwn | testSplice | loadLocal | waitGlobal | critical | unlock => exact hq
  | setWait me =>
    obtain rfl : me = m.node i := hme
    exact hmono (frame_store hi hbody hj (hset _) (fun _ _ => rfl) (fun _ _ => rfl)
      (fun _ _ => rfl) (.inl rfl) fun h => h)
  | setSplice me =>
    obtain rfl : me = m.node i := hme
    exact hmono (frame_store hi hbody.1 hj (fun _ _ => rfl) (hset _) (fun _ _ => rfl)
      (fun _ _ => rfl) (.inl rfl) fun h => h)
  | setId me v =>
    obtain rfl : me = m.node i := hme
    obtain ⟨⟨hout, -⟩, rfl⟩ := hbody
    exact hmono (frame_store hi hout hj (fun _ _ => rfl) (fun _ _ => rfl)
      (fun n hn => Function.update_of_ne hn ..) (fun _ _ => rfl)
      (.inr (Function.update_self ..)) fun h => h)
  | setPrevious me tail =>
    obtain rfl : me = m.node i := hme
    exact hmono (frame_store hi hbody.1.1 hj (fun _ _ => rfl) (fun _ _ => rfl) (fun _ _ => rfl)
      (fun n hn => Function.update_of_ne hn ..) (.inl rfl) fun _ => by
        simp only [Function.update_self]
        exact Option.some_ne_none _)
  | enter me =>
    obtain rfl : me = m.node i := hme
    exact hmono (frame_enter hj)
  | link me previous =>
    obtain rfl : me = m.node i := hme
    exact hmono (frame_link hi (pending_of hbody.mem) hj)
  | swap me localTail => exact hmono (frame_swap hi hbody.1 hj)
  | mark me localTail previous => exact hmono (frame_mark hi hmarks hj)
  | release me previous =>
    obtain rfl : me = m.node i := hme
    obtain ⟨hfirst, rfl⟩ := hbody
    exact hmono (frame_release hi hfirst hj)

theorem invariant : Threads.Invariant (Step cluster) (fun _ _ _ => True) (Inv cluster id)
    (At cluster id) where
  own hstep _ hinv hat := by
    cases hstep with
    | lock me => exact ⟨hinv, hat.me, hat.marks, hat.body⟩
    | unlock me => exact ⟨hinv, hat.me, hat.marks, hat.body⟩
    | act => exact own_step hinv hat
  other hstep _ hinv hat _ _ hj hatj := by
    cases hstep with
    | lock me => exact hatj
    | unlock me => exact hatj
    | act => exact other_step hinv hat hj hatj

/-! ## Every run -/

variable {globalId : Int} {junk : ι → Bool × Bool × Int × Option (Node ι κ)}

omit [DecidableEq ι] in
theorem init_inv : Inv cluster id (init id globalId junk) where
  order_nodup := List.nodup_nil
  todo_nodup _ := List.nodup_nil
  todo_cluster _ _ hk := absurd hk List.not_mem_nil
  node_inj _ _ heq := Node.thread.inj heq
  node_ne_last _ _ := nofun
  home_node _ := rfl
  home_last _ := rfl
  popped := .inl rfl
  globalLine := trivial
  localLine _ := trivial
  globQueue := rfl
  localQueue _ := rfl
  clusterId _ := rfl
  ready _ _ hk := absurd hk List.not_mem_nil
  unspliced _ _ hk := absurd hk List.not_mem_nil
  follower _ hk := absurd hk List.not_mem_nil
  marked _ := .inl rfl
  marking_inj _ _ _ hk := absurd hk.symm (Option.some_ne_none _)
  marking _ _ hk := absurd hk.symm (Option.some_ne_none _)

omit [DecidableEq ι] [DecidableEq κ] in
theorem init_at : At cluster id i (init id globalId junk) (.idle (.thread i)) :=
  ⟨rfl, rfl, List.not_mem_nil, List.not_mem_nil, rfl⟩

omit [DecidableEq ι] [DecidableEq κ] in
/-- A thread that has the lock is the first one in the global queue. -/
theorem At.first (h : At cluster id i m p) (hp : p.Inside) : m.order.head? = some i := by
  have hbody := h.body
  cases p with
  | critical | unlock | release => exact hbody.1
  | _ => exact hp.elim

omit [DecidableEq ι] [DecidableEq κ] in
/-- A thread that initializes its node is in no queue. -/
theorem At.out (h : At cluster id i m p) (hp : p.Initializes) : Out cluster i m := by
  have hbody := h.body
  cases p with
  | setWait => exact hbody
  | setSplice | loadQueue => exact hbody.1
  | loadId | setId | loadTail | setPrevious | enter => exact hbody.1.1
  | _ => exact hp.elim

omit [DecidableEq ι] in
/-- The node that a thread may still read is before its own in the local queue or in the global
queue. -/
theorem At.mayRead (h : At cluster id i m p) (hp : p.MayRead n) :
    i ∈ pending cluster m (cluster i) ∧ n = m.localPrev i ∨ i ∈ m.order ∧ n = m.globalPrev i := by
  have hbody := h.body
  cases p with
  | link => exact .inl ⟨pending_of hbody.mem, hp.trans hbody.prev⟩
  | check => exact .inl ⟨pending_of hbody.1.mem, hp.trans hbody.1.prev⟩
  | spinWait | spinId | spinSplice =>
    exact .inl ⟨pending_of hbody.1.1.mem, hp.trans hbody.1.1.prev⟩
  | spinOwn => exact .inl ⟨pending_of hbody.1.1.1.mem, hp.trans hbody.1.1.1.prev⟩
  | testId | testSplice => exact .inl ⟨pending_of hbody.waits.mem, hp.trans hbody.waits.prev⟩
  | testOwn => exact .inl ⟨pending_of hbody.1.waits.mem, hp.trans hbody.1.waits.prev⟩
  | mark | waitGlobal => exact .inr ⟨hbody.mem, hp.trans hbody.prev⟩
  | _ => exact hp.elim

omit [DecidableEq ι] in
/-- No thread in the global queue is behind the node of a thread in no queue. -/
theorem Inv.globalPrev_ne (hi : Inv cluster id m) (hj : j ∈ m.order) (h : Out cluster i m) :
    m.globalPrev j ≠ m.node i := by
  rcases hi.globalLine.prev_cases hj with ⟨-, -, heq⟩ | ⟨k, hk, heq⟩
  · rw [heq]
    rcases hi.popped with hpopped | ⟨c, hpopped⟩
    · intro hnode
      have hhome := congrArg (home cluster) (hpopped.symm.trans hnode)
      rw [hi.home_node] at hhome
      exact Option.some_ne_none _ hhome.symm
    · rw [hpopped]
      exact (hi.node_ne_last i c).symm
  · rw [heq]
    exact fun hki => h.order (hi.node_inj hki ▸ hk)

/-- At most one thread has the lock, and no thread initializes a node that another one may still
read as the one before its own. -/
theorem hclh_exclusive (cluster : ι → κ) (id : κ → Int) (globalId : Int)
    (junk : ι → Bool × Bool × Int × Option (Node ι κ)) {s : Threads.System (Mem ι κ) (Pc ι κ) ι}
    (hr : Threads.System.Reachable (Step cluster) (fun _ _ _ => True)
      ⟨init id globalId junk, fun i => .idle (.thread i)⟩ s) :
    (∀ i j, (s.pc i).Inside → (s.pc j).Inside → i = j) ∧
      ∀ i j, (s.pc i).Initializes → ¬ (s.pc j).MayRead (s.pc i).me := by
  obtain ⟨hinv, hat⟩ := invariant.reachable hr (fun _ => trivial) init_inv fun i => init_at
  refine ⟨fun i j hi hj => ?_, fun i j hi hj => ?_⟩
  · have hfirst := (hat i).2.first hi
    rw [(hat j).2.first hj] at hfirst
    exact (Option.some.inj hfirst).symm
  · have hout := (hat i).2.out hi
    have hread := (hat j).2.mayRead hj
    rw [(hat i).2.me] at hread
    rcases hread with ⟨hmem, heq⟩ | ⟨hmem, heq⟩
    · exact hinv.localPrev_ne hmem hout heq.symm
    · exact hinv.globalPrev_ne hmem hout heq.symm

/-- A thread makes `n` accesses in a row. -/
theorem reachable_acts {s₀ s : Threads.System (Mem ι κ) (Pc ι κ) ι}
    (hr : Threads.System.Reachable (Step cluster) (fun _ _ _ => True) s₀ s) (i : ι) (n : Nat) :
    Threads.System.Reachable (Step cluster) (fun _ _ _ => True) s₀ (s.acts (act cluster) i n) :=
  hr.acts i n (fun _ _ m p _ _ => .inr (.act m p)) fun _ _ _ => trivial

/-- The memory for one cluster of two threads. -/
def initTwo : Mem Bool Unit := init (fun _ => 0) (-1) fun _ => (false, false, 0, none)

/-- One thread puts itself and another one that has entered behind it into the global queue. When it
has released the lock it comes again, with the node that was before its own, while the other one
still reads its own. That one then has the lock. -/
theorem hclh_exclusive_two :
    ∃ s s' : Threads.System (Mem Bool Unit) (Pc Bool Unit) Bool,
      Threads.System.Reachable (Step fun _ => ()) (fun _ _ _ => True)
        ⟨initTwo, fun i => .idle (.thread i)⟩ s ∧
      (s.pc false).me = .cluster () ∧ s.pc true = .testId (.thread true) (.thread false) ∧
      ¬ (s.pc true).MayRead (s.pc false).me ∧
      Threads.System.Reachable (Step fun _ => ()) (fun _ _ _ => True) s s' ∧
      s'.pc true = .critical (.thread true) ∧
      s'.pc false = .spinWait (.cluster ()) (.thread true) ∧ ¬ (s'.pc false).Inside := by
  have h₁ := (Relation.ReflTransGen.refl (r := Threads.System.Step (Step fun _ => ())
    (fun _ _ _ => True)) (a := (⟨initTwo, fun i => .idle (.thread i)⟩ :
      Threads.System (Mem Bool Unit) (Pc Bool Unit) Bool))).tail
        (.run false (.lock _ (.thread false)) fun _ => trivial)
  have h₂ := reachable_acts h₁ false 10
  have h₃ := reachable_acts (h₂.tail (.run true (.lock _ (.thread true)) fun _ => trivial)) true 10
  -- both nodes get into the global queue
  have h₄ := reachable_acts h₃ false 4
  have h₅ := reachable_acts
    (h₄.tail (.run false (.unlock _ (.thread false)) fun _ => trivial)) false 2
  have h₆ := reachable_acts h₅ true 1
  have h₇ := reachable_acts (h₆.tail (.run false (.lock _ (.cluster ())) fun _ => trivial)) false 3
  have h₈ : ∀ s : Threads.System (Mem Bool Unit) (Pc Bool Unit) Bool,
      Threads.System.Reachable (Step fun _ => ()) (fun _ _ _ => True) s
        ((s.acts (act fun _ => ()) true 3).acts (act fun _ => ()) false 7) :=
    fun _ => reachable_acts (reachable_acts .refl true 3) false 7
  have hreuse : ∀ s : Threads.System (Mem Bool Unit) (Pc Bool Unit) Bool,
      Threads.System.Reachable (Step fun _ => ()) (fun _ _ _ => True)
        ⟨initTwo, fun i => .idle (.thread i)⟩ s →
      s.pc false = .loadId (.cluster ()) (.thread true) →
      ¬ (s.pc true).MayRead (s.pc false).me := by
    intro s hr hfalse
    have hinits : (s.pc false).Initializes := hfalse ▸ trivial
    exact (hclh_exclusive (fun _ => ()) _ _ _ hr).2 false true hinits
  have hexclusive : ∀ s : Threads.System (Mem Bool Unit) (Pc Bool Unit) Bool,
      Threads.System.Reachable (Step fun _ => ()) (fun _ _ _ => True)
        ⟨initTwo, fun i => .idle (.thread i)⟩ s →
      s.pc true = .critical (.thread true) → ¬ (s.pc false).Inside := by
    intro s hr htrue hfalse
    have hinside : (s.pc true).Inside := htrue ▸ trivial
    exact Bool.false_ne_true ((hclh_exclusive (fun _ => ()) _ _ _ hr).1 _ _ hfalse hinside)
  have hnode := hreuse _ h₇
  have hbehind := hexclusive _ (h₇.trans (h₈ _))
  exact ⟨_, _, h₇, by decide +kernel, by decide +kernel, hnode (by decide +kernel), h₈ _,
    by decide +kernel, by decide +kernel, hbehind (by decide +kernel)⟩

end ConcurrencyKit.Hclh
