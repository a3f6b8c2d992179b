import ConcurrencyKit.Hclh.Invariant

/-!
# What the threads of a hierarchical CLH lock do to the lines

A thread that is in no queue may store to its node as it likes. The stores to the queues put a
thread at the end of the line of its cluster, and the first threads of this line at the end of the
global one. A thread that releases the lock leaves both lines at the front, and takes the node over
that nobody else knows.
-/

namespace ConcurrencyKit.Hclh

open Line (Linked endOf)

variable {ι κ : Type} [DecidableEq κ] {cluster : ι → κ} {id : κ → Int} {m : Mem ι κ} {i j : ι}
  {c : κ} {n previous x : Node ι κ}

/-! ## Stores to the own node -/

section Stores

variable {w s : Node ι κ → Bool} {d : Node ι κ → Int} {q : Node ι κ → Option (Node ι κ)}

theorem Inv.store (hi : Inv cluster id m) (h : Out cluster i m)
    (hw : ∀ n, n ≠ m.node i → w n = m.wait n) (hs : ∀ n, n ≠ m.node i → s n = m.splice n)
    (hd : ∀ n, n ≠ m.node i → d n = m.clusterId n)
    (hq : ∀ n, n ≠ m.node i → q n = m.previous n) :
    Inv cluster id { m with wait := w, splice := s, clusterId := d, previous := q } := by
  have hpending : ∀ {c k}, k ∈ pending cluster m c → m.node k ≠ m.node i :=
    fun hk hki => hi.out_not_pending h (hi.node_inj hki ▸ hk)
  refine { hi with
    clusterId := fun c => ?_
    ready := fun c k hk => ?_
    unspliced := fun c k hk => ?_
    follower := fun k hk hhead => ?_
    marked := fun c => ?_
    marking := fun k n hk => ?_ }
  · exact (hd _ (hi.node_ne_last i c).symm).trans (hi.clusterId c)
  · have hne := hpending hk
    obtain ⟨hwait, hid, hprevious⟩ := hi.ready c k hk
    exact ⟨(hw _ hne).trans hwait, (hd _ hne).trans hid, (hq _ hne).trans_ne hprevious⟩
  · exact (hs _ (hpending (mem_pending.mpr (.inr hk)))).trans (hi.unspliced c k hk)
  · have hne := hi.localPrev_ne (pending_of (.inl hk)) h
    obtain ⟨hprev, hsplice, hprevious⟩ := hi.follower k hk hhead
    exact ⟨hprev, (hs _ hne).trans hsplice, (hq _ hne).trans_ne hprevious⟩
  · have hne := hi.edge_ne h c
    exact (hi.marked c).imp (hq _ hne).trans fun h => h.imp_left (hs _ hne).trans
  · obtain ⟨l₁, l₂, j, horder, hj, hnode, hedge, hsplice⟩ := hi.marking k n hk
    have hmem : j ∈ m.order := by
      rw [horder]
      exact List.mem_append_right l₁ hj
    have hne := hpending (pending_of (.inl hmem))
    exact ⟨l₁, l₂, j, horder, hj, hnode, hedge, (hs _ (hnode ▸ hne)).trans hsplice⟩

theorem frame_store (hi : Inv cluster id m) (h : Out cluster i m) (hj : j ≠ i)
    (hw : ∀ n, n ≠ m.node i → w n = m.wait n) (hs : ∀ n, n ≠ m.node i → s n = m.splice n)
    (hd : ∀ n, n ≠ m.node i → d n = m.clusterId n)
    (hq : ∀ n, n ≠ m.node i → q n = m.previous n)
    (hd' : d (m.node i) = m.clusterId (m.node i) ∨ d (m.node i) = id (cluster i))
    (hq' : m.previous (m.node i) ≠ none → q (m.node i) ≠ none) :
    Frame cluster id j m { m with wait := w, splice := s, clusterId := d, previous := q } where
  node := rfl
  marking := rfl
  head := rfl
  localPrev := rfl
  globalPrev _ := rfl
  out hout := by
    have hne : m.node j ≠ m.node i := fun heq => hj (hi.node_inj heq)
    exact ⟨⟨hout.order, hout.todo⟩, hw _ hne, hs _ hne⟩
  order hmem := hmem
  todo hmem := .inr hmem
  first hfirst := by
    have hne := hi.localPrev_ne (pending_of (.inl (List.mem_of_head? hfirst))) h
    exact ⟨hfirst, (hs _ hne).trans⟩
  next hnext := by
    have hne := hi.localPrev_ne (pending_of (.inr (List.mem_of_head? hnext))) h
    exact ⟨hnext, (hs _ hne).trans, (hq _ hne).trans, fun k hk => ⟨hk, rfl⟩⟩
  own := hq _ fun heq => hj (hi.node_inj heq)
  previous n hn := by
    by_cases heq : n = m.node i
    · rw [heq] at hn ⊢
      exact hq' hn
    · exact (hq n heq).trans_ne hn
  clusterId n hhome hn := by
    by_cases heq : n = m.node i
    · rw [heq] at hhome hn ⊢
      have hcluster : cluster i = cluster j :=
        Option.some.inj ((hi.home_node i).symm.trans hhome)
      exact hd'.elim (fun h => h.trans hn) fun h => h.trans (congrArg id hcluster)
    · exact (hd n heq).trans hn

theorem previous_setPrevious_ne [DecidableEq ι] (hn : m.previous n ≠ none) :
    (m.setPrevious (m.node i) previous).previous n ≠ none := by
  simp only [Mem.setPrevious, Function.update_apply]
  split
  case isTrue => exact Option.some_ne_none _
  case isFalse => exact hn

/-- The pointer of a thread in a queue is not null, so a null one is not the one that it stores
to. -/
theorem Inv.setPrevious_eq_none [DecidableEq ι] (hi : Inv cluster id m)
    (h : i ∈ pending cluster m c) (hnone : m.previous n = none) :
    (m.setPrevious (m.node i) previous).previous n = none := by
  have hne : n ≠ m.node i := by
    rintro rfl
    exact (hi.ready _ i h).2.2 hnone
  exact (Function.update_of_ne hne ..).trans hnone

theorem Inv.link [DecidableEq ι] (hi : Inv cluster id m) (h : i ∈ pending cluster m c) :
    Inv cluster id (m.setPrevious (m.node i) previous) := by
  refine { hi with
    ready := fun c k hk => ?_
    follower := fun k hk hhead => ?_
    marked := fun c => (hi.marked c).imp_left (hi.setPrevious_eq_none h) }
  · obtain ⟨hwait, hid, hprevious⟩ := hi.ready c k hk
    exact ⟨hwait, hid, previous_setPrevious_ne hprevious⟩
  · obtain ⟨hprev, hsplice, hprevious⟩ := hi.follower k hk hhead
    exact ⟨hprev, hsplice, previous_setPrevious_ne hprevious⟩

theorem frame_link [DecidableEq ι] (hi : Inv cluster id m) (h : i ∈ pending cluster m c)
    (hj : j ≠ i) : Frame cluster id j m (m.setPrevious (m.node i) previous) where
  node := rfl
  marking := rfl
  head := rfl
  localPrev := rfl
  globalPrev _ := rfl
  out hout := ⟨⟨hout.order, hout.todo⟩, rfl, rfl⟩
  order hmem := hmem
  todo hmem := .inr hmem
  first hfirst := ⟨hfirst, fun h => h⟩
  next hnext := ⟨hnext, fun h => h, hi.setPrevious_eq_none h, fun _ hk => ⟨hk, rfl⟩⟩
  own := Function.update_of_ne (fun heq => hj (hi.node_inj heq)) ..
  previous _ hn := previous_setPrevious_ne hn
  clusterId _ _ hn := hn

end Stores

/-- The node that was before those in the local queue only is not going to be marked, when the
thread that leads them has seen so. -/
theorem Leads.edge_marking (hi : Inv cluster id m) (h : Leads cluster i m) {k : ι}
    (hk : m.marking k = some n) : n ≠ edge cluster m (cluster i) := by
  obtain ⟨l₁, l₂, j, horder, hj, hnode, -, hsplice⟩ := hi.marking k n hk
  have hcases := h.cases
  rw [hi.localPrev_first h.first] at hcases
  rintro rfl
  rcases hcases with htrue | hnone
  · rw [hsplice] at htrue
    exact Bool.false_ne_true htrue
  · have hmem : j ∈ m.order := by
      rw [horder]
      exact List.mem_append_right l₁ hj
    exact (hi.ready _ j (pending_of (.inl hmem))).2.2 (hnode ▸ hnone)

variable [DecidableEq ι]

/-! ## Entering the local queue -/

theorem todo_enter (m : Mem ι κ) (i : ι) (c c' : κ) :
    (m.enter i c n).todo c' = if c' = c then m.todo c ++ [i] else m.todo c' :=
  Function.update_apply ..

theorem mem_todo_enter (m : Mem ι κ) (i : ι) (c c' : κ) :
    j ∈ (m.enter i c n).todo c' ↔ j ∈ m.todo c' ∨ c' = c ∧ j = i := by
  rw [todo_enter]
  split
  case isTrue h => rw [h, List.mem_append, List.mem_singleton, and_iff_right rfl]
  case isFalse h => simp [h]

theorem pending_enter (m : Mem ι κ) (i : ι) (c c' : κ) :
    pending cluster (m.enter i c n) c' =
      if c' = c then pending cluster m c ++ [i] else pending cluster m c' := by
  rw [pending, todo_enter]
  split
  case isTrue h =>
    subst h
    rw [pending, List.append_assoc]
    rfl
  case isFalse => rfl

theorem localPrev_enter (m : Mem ι κ) (c : κ) (hj : j ≠ i) :
    (m.enter i c n).localPrev j = m.localPrev j := Function.update_of_ne hj ..

theorem Inv.enter (hi : Inv cluster id m) (h : Out cluster i m)
    (hready : m.wait (m.node i) = true ∧ m.clusterId (m.node i) = id (cluster i) ∧
      m.previous (m.node i) ≠ none) (hsplice : m.splice (m.node i) = false) :
    Inv cluster id (m.enter i (cluster i) (m.node i)) := by
  have hne : ∀ {c k}, k ∈ pending cluster m c → k ≠ i := by
    rintro c k hk rfl
    exact hi.out_not_pending h hk
  have hline : ∀ c, Linked m.node (m.enter i (cluster i) (m.node i)).localPrev (m.last c)
      (pending cluster m c) := fun c =>
    (hi.localLine c).congr (fun k _ => rfl) fun k hk => localPrev_enter m _ (hne hk)
  refine { hi with
    todo_nodup := fun c => ?_
    todo_cluster := fun c k hk => ?_
    localLine := fun c => ?_
    localQueue := fun c => ?_
    ready := fun c k hk => ?_
    unspliced := fun c k hk => ?_
    follower := fun k hk hhead => ?_ }
  · rw [todo_enter]
    split
    case isTrue =>
      exact (hi.todo_nodup _).append (List.nodup_singleton i) (List.disjoint_singleton.mpr h.todo)
    case isFalse => exact hi.todo_nodup c
  · rcases (mem_todo_enter m i _ c).mp hk with hk | ⟨rfl, rfl⟩
    · exact hi.todo_cluster c k hk
    · exact ⟨rfl, h.order⟩
  · rw [pending_enter]
    split
    case isTrue heq =>
      subst heq
      refine (hline _).concat ?_
      exact (Function.update_self ..).trans (hi.localQueue _)
    case isFalse => exact hline c
  · rw [pending_enter]
    split
    case isTrue heq =>
      subst heq
      rw [Line.endOf_concat]
      exact Function.update_self ..
    case isFalse heq => exact (Function.update_of_ne heq ..).trans (hi.localQueue c)
  · rcases mem_pending.mp hk with hk | hk
    · exact hi.ready c k (mem_pending.mpr (.inl hk))
    · rcases (mem_todo_enter m i _ c).mp hk with hk | ⟨rfl, rfl⟩
      · exact hi.ready c k (mem_pending.mpr (.inr hk))
      · exact hready
  · rcases (mem_todo_enter m i _ c).mp hk with hk | ⟨rfl, rfl⟩
    · exact hi.unspliced c k hk
    · exact hsplice
  · rw [localPrev_enter m _ (hne (pending_of (.inl hk)))]
    exact hi.follower k hk hhead

theorem frame_enter (hj : j ≠ i) :
    Frame cluster id j m (m.enter i (cluster i) (m.node i)) where
  node := rfl
  marking := rfl
  head := rfl
  localPrev := localPrev_enter m _ hj
  globalPrev _ := rfl
  out hout := by
    refine ⟨⟨hout.order, fun hmem => ?_⟩, rfl, rfl⟩
    exact ((mem_todo_enter m i _ _).mp hmem).elim hout.todo fun h => hj h.2
  order hmem := hmem
  todo hmem := .inr ((mem_todo_enter m i _ _).mpr (.inl hmem))
  first hfirst := ⟨hfirst, fun h => h⟩
  next hnext := by
    refine ⟨?_, fun h => h, fun h => h, fun k hk => ⟨(mem_todo_enter m i _ _).mpr (.inl hk), rfl⟩⟩
    rw [todo_enter]
    split
    case isTrue heq =>
      obtain ⟨l, hl⟩ := List.head?_eq_some_iff.mp hnext
      rw [← heq, hl]
      rfl
    case isFalse => exact hnext
  own := rfl
  previous _ hn := hn
  clusterId _ _ hn := hn

/-! ## Marking the last one of those in the global queue -/

theorem Inv.mark (hi : Inv cluster id m) (h : m.marking i = some x) :
    Inv cluster id (m.mark i x) := by
  have hother : ∀ {k n}, (m.mark i x).marking k = some n → k ≠ i ∧ m.marking k = some n := by
    intro k n hk
    have hki : k ≠ i := by
      rintro rfl
      simp [Mem.mark] at hk
    exact ⟨hki, (Function.update_of_ne hki ..).symm.trans hk⟩
  have hsplice : ∀ n, n ≠ x → (m.mark i x).splice n = m.splice n := fun n hn =>
    Function.update_of_ne hn ..
  obtain ⟨j, hj, hnode⟩ := hi.marking_node h
  refine { hi with
    unspliced := fun c k hk => ?_
    follower := fun k hk hhead => ?_
    marked := fun c => ?_
    marking_inj := fun k k' n hk hk' => hi.marking_inj k k' n (hother hk).2 (hother hk').2
    marking := fun k n hk => ?_ }
  · have hne : m.node k ≠ x := by
      rw [← hnode]
      exact fun heq => (hi.todo_cluster c k hk).2 (hi.node_inj heq ▸ hj)
    exact (hsplice _ hne).trans (hi.unspliced c k hk)
  · obtain ⟨hprev, hsplice', hprevious⟩ := hi.follower k hk hhead
    exact ⟨hprev, (hsplice _ (hi.localPrev_ne_marking h hk)).trans hsplice', hprevious⟩
  · by_cases heq : edge cluster m c = x
    · refine .inr (.inl ?_)
      exact (congrArg _ heq).trans (Function.update_self ..)
    · rcases hi.marked c with hnone | hmarked | ⟨k, hk⟩
      · exact .inl hnone
      · exact .inr (.inl ((hsplice _ heq).trans hmarked))
      · have hki : k ≠ i := by
          rintro rfl
          exact heq (Option.some.inj (hk.symm.trans h))
        exact .inr (.inr ⟨k, (Function.update_of_ne hki ..).trans hk⟩)
  · obtain ⟨hki, hk'⟩ := hother hk
    obtain ⟨l₁, l₂, j, horder, hj, hnode, hedge, hsplice'⟩ := hi.marking k n hk'
    have hne : n ≠ x := by
      rintro rfl
      exact hki (hi.marking_inj k i n hk' h)
    exact ⟨l₁, l₂, j, horder, hj, hnode, hedge, (hsplice n hne).trans hsplice'⟩

theorem frame_mark (hi : Inv cluster id m) (h : m.marking i = some x) (hj : j ≠ i) :
    Frame cluster id j m (m.mark i x) where
  node := rfl
  marking := Function.update_of_ne hj ..
  head := rfl
  localPrev := rfl
  globalPrev _ := rfl
  out hout := by
    obtain ⟨k, hk, hnode⟩ := hi.marking_node h
    have hne : m.node j ≠ x := by
      rw [← hnode]
      exact fun heq => hout.order (hi.node_inj heq ▸ hk)
    exact ⟨⟨hout.order, hout.todo⟩, rfl, Function.update_of_ne hne ..⟩
  order hmem := hmem
  todo hmem := .inr hmem
  first hfirst := by
    have hne := hi.localPrev_ne_marking h (List.mem_of_head? hfirst)
    exact ⟨hfirst, (Function.update_of_ne hne ..).trans⟩
  next hnext := by
    refine ⟨hnext, fun htrue => ?_, fun h => h, fun k hk => ⟨hk, rfl⟩⟩
    simp only [Mem.mark]
    by_cases heq : m.localPrev j = x
    · rw [heq, Function.update_self]
    · rwa [Function.update_of_ne heq]
  own := rfl
  previous _ hn := hn
  clusterId _ _ hn := hn

/-! ## Entering the global queue -/

/-- The threads that go into the global queue. -/
def batch (m : Mem ι κ) (c : κ) (x : Node ι κ) : List ι := (m.todo c).take (m.upTo c x)

/-- The threads that do not. -/
def rest (m : Mem ι κ) (c : κ) (x : Node ι κ) : List ι := (m.todo c).drop (m.upTo c x)

theorem batch_append_rest (m : Mem ι κ) (c : κ) (x : Node ι κ) :
    batch m c x ++ rest m c x = m.todo c := List.take_append_drop ..

/-- The last one of the threads is the one with the node. -/
theorem batch_concat (h : ∃ j ∈ m.todo c, m.node j = x) :
    ∃ l j, batch m c x = l ++ [j] ∧ m.node j = x := by
  have hlt : (m.todo c).findIdx (fun i => m.node i = x) < (m.todo c).length := by
    refine List.findIdx_lt_length_of_exists ?_
    obtain ⟨j, hj, hnode⟩ := h
    exact ⟨j, hj, decide_eq_true hnode⟩
  refine ⟨_, _, List.take_succ_eq_append_getElem hlt, ?_⟩
  exact of_decide_eq_true (List.findIdx_getElem (w := hlt))

theorem endOf_batch (h : ∃ j ∈ m.todo c, m.node j = x) (n : Node ι κ) :
    endOf m.node n (batch m c x) = x := by
  obtain ⟨l, j, hl, hnode⟩ := batch_concat h
  rw [hl, Line.endOf_concat, hnode]

/-- The first thread goes into the global queue. -/
theorem batch_cons (h : (m.todo c).head? = some i) :
    ∃ l, batch m c x = i :: l := by
  obtain ⟨l, hl⟩ := List.head?_eq_some_iff.mp h
  exact ⟨_, by rw [batch, hl, Mem.upTo, List.take_succ_cons]⟩

theorem mem_batch (h : j ∈ batch m c x) : j ∈ m.todo c := List.mem_of_mem_take h

theorem mem_rest (h : j ∈ rest m c x) : j ∈ m.todo c := List.mem_of_mem_drop h

theorem todo_swap (m : Mem ι κ) (i : ι) (c c' : κ) (x : Node ι κ) :
    (m.swap i c x).todo c' = if c' = c then rest m c x else m.todo c' :=
  Function.update_apply ..

theorem mem_todo_swap {c' : κ} (h : j ∈ (m.swap i c x).todo c') : j ∈ m.todo c' := by
  rw [todo_swap] at h
  split at h
  case isTrue heq => exact heq ▸ mem_rest h
  case isFalse => exact h

theorem order_swap (m : Mem ι κ) (i : ι) (c : κ) (x : Node ι κ) :
    (m.swap i c x).order = m.order ++ batch m c x := rfl

/-- The threads that go into the global queue are in one cluster. -/
theorem committed_swap (hi : Inv cluster id m) (c c' : κ) :
    committed cluster (m.swap i c x) c' =
      if c' = c then committed cluster m c ++ batch m c x else committed cluster m c' := by
  have hcluster : ∀ k ∈ batch m c x, cluster k = c := fun k hk =>
    (hi.todo_cluster c k (mem_batch hk)).1
  rw [committed, order_swap, List.filter_append]
  split
  case isTrue h =>
    subst h
    have hall : (batch m c' x).filter (fun k => cluster k = c') = batch m c' x :=
      List.filter_eq_self.mpr fun k hk => decide_eq_true (hcluster k hk)
    rw [hall, committed]
  case isFalse h =>
    have hnone : (batch m c x).filter (fun k => cluster k = c') = [] := by
      refine List.filter_eq_nil_iff.mpr fun k hk => ?_
      rw [decide_eq_true_iff, hcluster k hk]
      exact Ne.symm h
    rw [hnone, List.append_nil, committed]

/-- The line of a cluster stays as it is. -/
theorem pending_swap (hi : Inv cluster id m) (c c' : κ) :
    pending cluster (m.swap i c x) c' = pending cluster m c' := by
  rw [pending, committed_swap hi, todo_swap]
  split
  case isTrue h =>
    subst h
    rw [List.append_assoc, batch_append_rest, pending]
  case isFalse => rfl

theorem edge_swap (hi : Inv cluster id m) (h : ∃ j ∈ m.todo c, m.node j = x) (c' : κ) :
    edge cluster (m.swap i c x) c' = if c' = c then x else edge cluster m c' := by
  rw [edge, committed_swap hi]
  split
  case isTrue =>
    rw [Line.endOf_append]
    exact endOf_batch h _
  case isFalse => rfl

/-- The other threads that go into the global queue follow the ones before them. -/
theorem follower_batch (hi : Inv cluster id m) (hfirst : (m.todo c).head? = some i)
    (hj : j ∈ batch m c x) (hne : j ≠ i) :
    m.splice (m.localPrev j) = false ∧ m.previous (m.localPrev j) ≠ none := by
  have hline := (Line.linked_append.mp (hi.localLine c)).2
  rcases hline.prev_cases (mem_batch hj) with ⟨l, hl, -⟩ | ⟨k, hk, heq⟩
  · rw [hl, List.head?_cons] at hfirst
    exact absurd (Option.some.inj hfirst) hne
  · rw [heq]
    exact ⟨hi.unspliced c k hk, (hi.ready c k (mem_pending.mpr (.inr hk))).2.2⟩

theorem globalPrev_swap (hj : j ≠ i) (c : κ) (x : Node ι κ) :
    (m.swap i c x).globalPrev j = if j ∈ batch m c x then m.localPrev j else m.globalPrev j := by
  simp only [Mem.swap]
  rw [if_neg hj]
  rfl

theorem globalPrev_self (m : Mem ι κ) (i : ι) (c : κ) (x : Node ι κ) :
    (m.swap i c x).globalPrev i = m.globQueue := if_pos rfl

theorem globalPrev_order (hi : Inv cluster id m) (hfirst : (m.todo c).head? = some i)
    (hj : j ∈ m.order) : (m.swap i c x).globalPrev j = m.globalPrev j := by
  have hne : j ≠ i := by
    rintro rfl
    exact (hi.todo_cluster c j (List.mem_of_head? hfirst)).2 hj
  rw [globalPrev_swap hne, if_neg fun hmem => (hi.todo_cluster c j (mem_batch hmem)).2 hj]

/-- The threads that go into the global queue form a line behind those that are there. -/
theorem linked_swap (hi : Inv cluster id m) (hfirst : (m.todo c).head? = some i) :
    Linked m.node (m.swap i c x).globalPrev m.popped (m.order ++ batch m c x) := by
  refine Line.linked_append.mpr
    ⟨hi.globalLine.congr (fun _ _ => rfl) fun k hk => globalPrev_order hi hfirst hk, ?_⟩
  obtain ⟨l, hl⟩ := batch_cons (x := x) hfirst
  have hline := (Line.linked_append.mp (hi.localLine c)).2
  rw [← batch_append_rest m c x, Line.linked_append, hl] at hline
  have hnodup := hi.todo_nodup c
  rw [← batch_append_rest m c x, hl, List.cons_append] at hnodup
  have hnotin : i ∉ l := fun hmem =>
    (List.nodup_cons.mp hnodup).1 (List.mem_append_left _ hmem)
  rw [hl]
  refine ⟨?_, hline.1.2.congr (fun _ _ => rfl) fun k hk => ?_⟩
  · exact (globalPrev_self m i c x).trans hi.globQueue
  · have hki : k ≠ i := fun heq => hnotin (heq ▸ hk)
    rw [globalPrev_swap hki, if_pos]
    rw [hl]
    exact List.mem_cons_of_mem i hk

theorem Inv.swap (hi : Inv cluster id m) (h : Leads cluster i m)
    (hx : ∃ j ∈ m.todo (cluster i), m.node j = x) (hmarking : m.marking i = none) :
    Inv cluster id (m.swap i (cluster i) x) := by
  have hmarking' : ∀ {k n}, (m.swap i (cluster i) x).marking k = some n →
      k = i ∧ n = x ∨ k ≠ i ∧ m.marking k = some n := by
    intro k n hk
    by_cases hki : k = i
    · subst hki
      have hself : (m.swap k (cluster k) x).marking k = some x := Function.update_self ..
      exact .inl ⟨rfl, Option.some.inj (hk.symm.trans hself)⟩
    · exact .inr ⟨hki, (Function.update_of_ne hki ..).symm.trans hk⟩
  have hnew : ∀ {k n}, m.marking k = some n → n ≠ x := by
    rintro k n hk rfl
    obtain ⟨j, hj, hnode⟩ := hi.marking_node hk
    obtain ⟨j', hj', hnode'⟩ := hx
    exact (hi.todo_cluster _ j' hj').2 (hi.node_inj (hnode'.trans hnode.symm) ▸ hj)
  have hpending := pending_swap (x := x) (i := i) hi (cluster i)
  refine { hi with
    order_nodup := ?_
    todo_nodup := fun c => ?_
    todo_cluster := fun c k hk => ⟨(hi.todo_cluster c k (mem_todo_swap hk)).1, fun hmem => ?_⟩
    globalLine := linked_swap hi h.first
    localLine := fun c => by
      rw [hpending]
      exact hi.localLine c
    globQueue := ?_
    localQueue := fun c => by
      rw [hpending]
      exact hi.localQueue c
    ready := fun c k hk => hi.ready c k (hpending c ▸ hk)
    unspliced := fun c k hk => hi.unspliced c k (mem_todo_swap hk)
    follower := fun k hk hhead => ?_
    marked := fun c => ?_
    marking_inj := fun k k' n hk hk' => ?_
    marking := fun k n hk => ?_ }
  · refine hi.order_nodup.append ((hi.todo_nodup _).sublist (List.take_sublist ..)) ?_
    exact fun k hk hk' => (hi.todo_cluster _ k (mem_batch hk')).2 hk
  · rw [todo_swap]
    split
    case isTrue => exact (hi.todo_nodup _).sublist (List.drop_sublist ..)
    case isFalse => exact hi.todo_nodup c
  · rcases List.mem_append.mp hmem with hmem | hmem
    · exact (hi.todo_cluster c k (mem_todo_swap hk)).2 hmem
    · have hc : c = cluster i :=
        (hi.todo_cluster c k (mem_todo_swap hk)).1.symm.trans
          (hi.todo_cluster _ k (mem_batch hmem)).1
      rw [todo_swap, if_pos hc] at hk
      have hnodup := hi.todo_nodup (cluster i)
      rw [← batch_append_rest m (cluster i) x] at hnodup
      exact List.disjoint_of_nodup_append hnodup hmem hk
  · rw [order_swap, Line.endOf_append]
    exact (endOf_batch hx _).symm
  · have hki : k ≠ i := by
      rintro rfl
      simp [Mem.swap] at hhead
    rw [order_swap] at hk
    rcases List.mem_append.mp hk with hk | hk
    · rw [globalPrev_order hi h.first hk]
      exact hi.follower k hk ((Function.update_of_ne hki ..).symm.trans hhead)
    · obtain ⟨hsplice, hprevious⟩ := follower_batch hi h.first hk hki
      rw [globalPrev_swap hki, if_pos hk]
      exact ⟨rfl, hsplice, hprevious⟩
  · rw [edge_swap hi hx]
    split
    case isTrue => exact .inr (.inr ⟨i, Function.update_self ..⟩)
    case isFalse =>
      refine (hi.marked c).imp_right fun hmarked => hmarked.imp_right fun ⟨k, hk⟩ => ⟨k, ?_⟩
      have hki : k ≠ i := by
        rintro rfl
        exact Option.some_ne_none _ (hk.symm.trans hmarking)
      exact (Function.update_of_ne hki ..).trans hk
  · rcases hmarking' hk with ⟨hki, hn⟩ | ⟨-, hk⟩ <;>
      rcases hmarking' hk' with ⟨hki', hn'⟩ | ⟨-, hk'⟩
    · exact hki.trans hki'.symm
    · exact absurd hn (hnew hk')
    · exact absurd hn' (hnew hk)
    · exact hi.marking_inj k k' n hk hk'
  · rcases hmarking' hk with ⟨rfl, rfl⟩ | ⟨-, hk⟩
    · obtain ⟨l, hl⟩ := batch_cons (x := n) h.first
      obtain ⟨l', j, hl', hnode⟩ := batch_concat hx
      have hj : j ∈ batch m (cluster k) n := by
        rw [hl']
        exact List.mem_append_right l' List.mem_cons_self
      have hcluster := (hi.todo_cluster _ j (mem_batch hj)).1
      refine ⟨m.order, l, j, ?_, hl ▸ hj, hnode, ?_, ?_⟩
      · rw [order_swap, hl]
      · rw [edge_swap hi hx, if_pos hcluster]
      · exact hnode ▸ hi.unspliced _ j (mem_batch hj)
    · obtain ⟨l₁, l₂, j, horder, hj, hnode, hedge, hsplice⟩ := hi.marking k n hk
      have hcluster : cluster j ≠ cluster i := by
        intro heq
        exact h.edge_marking hi hk (heq ▸ hedge.symm)
      refine ⟨l₁, l₂ ++ batch m (cluster i) x, j, ?_, ?_, hnode, ?_, hsplice⟩
      · rw [order_swap, horder, List.append_assoc, List.cons_append]
      · exact List.mem_append_left _ hj
      · rw [edge_swap hi hx, if_neg hcluster]
        exact hedge

theorem frame_swap (hi : Inv cluster id m) (h : Leads cluster i m) (hj : j ≠ i) :
    Frame cluster id j m (m.swap i (cluster i) x) where
  node := rfl
  marking := Function.update_of_ne hj ..
  head := Function.update_of_ne hj ..
  localPrev := rfl
  globalPrev hmem := globalPrev_order hi h.first hmem
  out hout := by
    refine ⟨⟨fun hmem => ?_, fun hmem => hout.todo (mem_todo_swap hmem)⟩, rfl, rfl⟩
    rcases List.mem_append.mp hmem with hmem | hmem
    · exact hout.order hmem
    · have htodo := mem_batch hmem
      rw [← (hi.todo_cluster _ j htodo).1] at htodo
      exact hout.todo htodo
  order hmem := List.mem_append_left _ hmem
  todo hmem := by
    rw [todo_swap, order_swap]
    split
    case isTrue heq =>
      rw [heq, ← batch_append_rest m (cluster i) x] at hmem
      exact (List.mem_append.mp hmem).imp_left (List.mem_append_right _)
    case isFalse => exact .inr hmem
  first hfirst := by
    obtain ⟨l, hl⟩ := List.head?_eq_some_iff.mp hfirst
    exact ⟨by rw [order_swap, hl]; rfl, fun h => h⟩
  next hnext := by
    have hne : cluster j ≠ cluster i := by
      intro heq
      rw [heq, h.first] at hnext
      exact hj (Option.some.inj hnext).symm
    rw [todo_swap, if_neg hne]
    exact ⟨hnext, fun h => h, fun h => h, fun k hk => ⟨hk, rfl⟩⟩
  own := rfl
  previous _ hn := hn
  clusterId _ _ hn := hn

/-! ## Releasing the lock -/

omit [DecidableEq ι] in
theorem committed_cons {l : List ι} (h : m.order = i :: l) (c : κ) :
    committed cluster m c = if cluster i = c then i :: l.filter (fun k => cluster k = c)
      else l.filter fun k => cluster k = c := by
  rw [committed, h, List.filter_cons]
  simp only [decide_eq_true_eq]

omit [DecidableEq ι] in
/-- The first thread in the global queue is the first one of its cluster. -/
theorem Inv.localPrev_order_first (hi : Inv cluster id m) (h : m.order.head? = some i) :
    m.localPrev i = m.last (cluster i) := by
  obtain ⟨l, hl⟩ := List.head?_eq_some_iff.mp h
  have hline := (Line.linked_append.mp (hi.localLine (cluster i))).1
  rw [committed_cons hl, if_pos rfl] at hline
  exact hline.1

theorem node_release (m : Mem ι κ) (i k : ι) (c : κ) :
    (m.release i c n previous).node k = if k = i then previous else m.node k :=
  Function.update_apply ..

theorem last_release (m : Mem ι κ) (i : ι) (c c' : κ) :
    (m.release i c n previous).last c' = if c' = c then n else m.last c' :=
  Function.update_apply ..

/-- The line of the cluster loses its first thread, and the others stay as they are. -/
theorem committed_release (h : m.order.head? = some i) (c c' : κ) :
    committed cluster m c =
      if cluster i = c then i :: committed cluster (m.release i c' n previous) c
      else committed cluster (m.release i c' n previous) c := by
  obtain ⟨l, hl⟩ := List.head?_eq_some_iff.mp h
  have htail : (m.release i c' n previous).order = l := by
    simp only [Mem.release, hl, List.tail_cons]
  rw [committed_cons hl, committed, htail]

theorem pending_release (h : m.order.head? = some i) (c c' : κ) :
    pending cluster m c =
      if cluster i = c then i :: pending cluster (m.release i c' n previous) c
      else pending cluster (m.release i c' n previous) c := by
  rw [pending, committed_release h c c', pending]
  split
  case isTrue => rfl
  case isFalse => rfl

theorem mem_order_release (hi : Inv cluster id m) (h : m.order.head? = some i) {k : ι}
    (hk : k ∈ (m.release i c n previous).order) : k ≠ i ∧ k ∈ m.order := by
  obtain ⟨l, hl⟩ := List.head?_eq_some_iff.mp h
  have hnodup := hi.order_nodup
  simp only [Mem.release] at hk
  rw [hl] at hk hnodup ⊢
  refine ⟨?_, List.mem_cons_of_mem i hk⟩
  rintro rfl
  exact (List.nodup_cons.mp hnodup).1 hk

theorem mem_pending_release (hi : Inv cluster id m) (h : m.order.head? = some i) {k : ι}
    {c' : κ} (hk : k ∈ pending cluster (m.release i c n previous) c') :
    k ≠ i ∧ k ∈ pending cluster m c' := by
  rcases mem_pending.mp hk with ⟨horder, hcluster⟩ | htodo
  · obtain ⟨hne, hmem⟩ := mem_order_release hi h horder
    exact ⟨hne, mem_pending.mpr (.inl ⟨hmem, hcluster⟩)⟩
  · refine ⟨?_, mem_pending.mpr (.inr htodo)⟩
    rintro rfl
    exact (hi.todo_cluster c' k htodo).2 (List.mem_of_head? h)

/-- The node of the thread becomes the one before those of its cluster. -/
theorem edge_release (hi : Inv cluster id m) (h : m.order.head? = some i) (c : κ) :
    edge cluster (m.release i (cluster i) (m.node i) previous) c = edge cluster m c := by
  have hnode : ∀ k ∈ committed cluster (m.release i (cluster i) (m.node i) previous) c,
      (m.release i (cluster i) (m.node i) previous).node k = m.node k := by
    intro k hk
    rw [node_release, if_neg (mem_order_release hi h (mem_committed.mp hk).1).1]
  rw [edge, Line.endOf_congr hnode, edge, committed_release h c (cluster i), last_release]
  by_cases hc : c = cluster i
  · subst hc
    rw [if_pos rfl, if_pos rfl]
    rfl
  · rw [if_neg hc, if_neg (Ne.symm hc)]

theorem Inv.release (hi : Inv cluster id m) (h : m.order.head? = some i)
    (hmarking : m.marking i = none) :
    Inv cluster id (m.release i (cluster i) (m.node i) (m.localPrev i)) := by
  set m' := m.release i (cluster i) (m.node i) (m.localPrev i) with hm'
  have hprev := hi.localPrev_order_first h
  have hnode : ∀ k, m'.node k = if k = i then m.localPrev i else m.node k := fun k =>
    node_release m i k (cluster i)
  have hlast : ∀ c, m'.last c = if c = cluster i then m.node i else m.last c := fun c =>
    last_release m i (cluster i) c
  have horder : ∀ {k}, k ∈ m'.order → k ≠ i ∧ k ∈ m.order := mem_order_release hi h
  have hmem : ∀ {k c}, k ∈ pending cluster m' c → k ≠ i ∧ k ∈ pending cluster m c :=
    mem_pending_release hi h
  have hpending : ∀ c, pending cluster m c =
      if cluster i = c then i :: pending cluster m' c else pending cluster m' c := fun c =>
    pending_release h c (cluster i)
  have hedge : ∀ c, edge cluster m' c = edge cluster m c := edge_release hi h
  have hnode' : ∀ {k c}, k ∈ pending cluster m' c → m'.node k = m.node k := fun hk =>
    (hnode _).trans (if_neg (hmem hk).1)
  have hwait : ∀ k, k ≠ i → m'.wait (m.node k) = m.wait (m.node k) := fun k hk =>
    Function.update_of_ne (fun heq => hk (hi.node_inj heq)) ..
  obtain ⟨l, hl⟩ := List.head?_eq_some_iff.mp h
  have htail : m'.order = l := by
    rw [hm']
    simp only [Mem.release, hl, List.tail_cons]
  have hnodup := hi.order_nodup
  have hglobal := hi.globalLine
  rw [hl] at hnodup hglobal
  have hnode'' : ∀ k ∈ l, m'.node k = m.node k := fun k hk =>
    (hnode k).trans (if_neg (horder (htail.symm ▸ hk)).1)
  refine
    { order_nodup := ?_
      todo_nodup := hi.todo_nodup
      todo_cluster := fun c k hk =>
        ⟨(hi.todo_cluster c k hk).1, fun hk' => (hi.todo_cluster c k hk).2 (horder hk').2⟩
      node_inj := fun k k' heq => ?_
      node_ne_last := fun k c => ?_
      home_node := fun k => ?_
      home_last := fun c => ?_
      popped := .inr ⟨cluster i, ?_⟩
      globalLine := ?_
      localLine := fun c => ?_
      globQueue := ?_
      localQueue := fun c => ?_
      clusterId := fun c => ?_
      ready := fun c k hk => ?_
      unspliced := fun c k hk => ?_
      follower := fun k hk hhead => ?_
      marked := fun c => ?_
      marking_inj := hi.marking_inj
      marking := fun k n hk => ?_ }
  · rw [htail]
    exact (List.nodup_cons.mp hnodup).2
  · rw [hnode, hnode, hprev] at heq
    by_cases hk : k = i <;> by_cases hk' : k' = i
    · exact hk.trans hk'.symm
    · rw [if_pos hk, if_neg hk'] at heq
      exact absurd heq.symm (hi.node_ne_last k' _)
    · rw [if_neg hk, if_pos hk'] at heq
      exact absurd heq (hi.node_ne_last k _)
    · rw [if_neg hk, if_neg hk'] at heq
      exact hi.node_inj heq
  · rw [hnode, hlast, hprev]
    by_cases hk : k = i <;> by_cases hc : c = cluster i
    · rw [if_pos hk, if_pos hc]
      exact (hi.node_ne_last i _).symm
    · rw [if_pos hk, if_neg hc]
      intro heq
      have hhome := congrArg (home cluster) heq
      rw [hi.home_last, hi.home_last] at hhome
      exact hc (Option.some.inj hhome).symm
    · rw [if_neg hk, if_pos hc]
      exact fun heq => hk (hi.node_inj heq)
    · rw [if_neg hk, if_neg hc]
      exact hi.node_ne_last k c
  · rw [hnode]
    split
    case isTrue hk => rw [hk, hprev, hi.home_last]
    case isFalse => exact hi.home_node k
  · rw [hlast]
    split
    case isTrue hc => rw [hc, hi.home_node]
    case isFalse => exact hi.home_last c
  · exact ((hlast _).trans (if_pos rfl)).symm
  · rw [htail]
    exact hglobal.2.congr hnode'' fun _ _ => rfl
  · have hline := hi.localLine c
    rw [hpending] at hline
    rw [hlast]
    by_cases hc : c = cluster i
    · rw [if_pos hc.symm] at hline
      rw [if_pos hc]
      exact hline.2.congr (fun k hk => hnode' hk) fun _ _ => rfl
    · rw [if_neg (Ne.symm hc)] at hline
      rw [if_neg hc]
      exact hline.congr (fun k hk => hnode' hk) fun _ _ => rfl
  · rw [htail, Line.endOf_congr hnode'']
    exact hi.globQueue.trans (congrArg _ hl)
  · have hqueue := hi.localQueue c
    rw [hpending] at hqueue
    rw [hlast, Line.endOf_congr fun k hk => hnode' hk]
    by_cases hc : c = cluster i
    · rw [if_pos hc.symm] at hqueue
      rw [if_pos hc]
      exact hqueue
    · rw [if_neg (Ne.symm hc)] at hqueue
      rw [if_neg hc]
      exact hqueue
  · rw [hlast]
    split
    case isTrue hc =>
      rw [hc]
      exact (hi.ready _ i (pending_of (.inl (List.mem_of_head? h)))).2.1
    case isFalse => exact hi.clusterId c
  · obtain ⟨hne, hk'⟩ := hmem hk
    rw [hnode' hk, hwait k hne]
    exact hi.ready c k hk'
  · rw [hnode' (mem_pending.mpr (.inr hk))]
    exact hi.unspliced c k hk
  · obtain ⟨hne, hk'⟩ := horder hk
    exact hi.follower k hk' ((Function.update_of_ne hne ..).symm.trans hhead)
  · rw [hedge]
    exact hi.marked c
  · obtain ⟨l₁, l₂, j, hsplit, hj, hnodej, hedgej, hsplice⟩ := hi.marking k n hk
    cases l₁ with
    | nil =>
      rw [hl, List.nil_append, List.cons.injEq] at hsplit
      rw [← hsplit.1] at hk
      exact absurd (hk.symm.trans hmarking) (Option.some_ne_none n)
    | cons i' l₁ =>
      rw [hl, List.cons_append, List.cons.injEq] at hsplit
      have hjl : j ∈ l := hsplit.2 ▸ List.mem_append_right l₁ hj
      exact ⟨l₁, l₂, j, htail.trans hsplit.2, hj, (hnode'' j hjl).trans hnodej,
        (hedge _).trans hedgej, hsplice⟩

theorem frame_release (hi : Inv cluster id m) (h : m.order.head? = some i) (hj : j ≠ i) :
    Frame cluster id j m (m.release i (cluster i) (m.node i) (m.localPrev i)) where
  node := Function.update_of_ne hj ..
  marking := rfl
  head := Function.update_of_ne hj ..
  localPrev := rfl
  globalPrev _ := rfl
  out hout := by
    refine ⟨⟨fun hmem => hout.order (mem_order_release hi h hmem).2, hout.todo⟩, ?_, rfl⟩
    exact Function.update_of_ne (fun heq => hj (hi.node_inj heq)) ..
  order hmem := by
    obtain ⟨l, hl⟩ := List.head?_eq_some_iff.mp h
    simp only [Mem.release, hl, List.tail_cons]
    rw [hl] at hmem
    exact (List.mem_cons.mp hmem).resolve_left hj
  todo hmem := .inr hmem
  first hfirst := absurd (Option.some.inj (hfirst.symm.trans h)) hj
  next hnext := by
    refine ⟨hnext, fun h => h, fun h => h, fun k hk => ⟨hk, ?_⟩⟩
    refine Function.update_of_ne ?_ ..
    rintro rfl
    exact (hi.todo_cluster _ k hk).2 (List.mem_of_head? h)
  own := rfl
  previous _ hn := hn
  clusterId _ _ hn := hn

end ConcurrencyKit.Hclh
