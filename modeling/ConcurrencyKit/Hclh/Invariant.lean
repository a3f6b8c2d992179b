import ConcurrencyKit.Hclh.Model
import ConcurrencyKit.Misc.Line
import Mathlib.Data.List.Nodup

/-!
# Who is before whom in a hierarchical CLH lock

The threads of a cluster form a line from the node that has been released last in the cluster to the
tail of the local queue. Those that are in the global queue come first. All threads in the global
queue form a line, too, and a thread that has not put itself there is right behind the thread that
is before it in the local queue.

A thread in the global queue with a follower in its cluster that is not has been marked, or will be
by the thread that has put it there.
-/

namespace ConcurrencyKit.Hclh

open Line (Linked endOf)

variable {ι κ : Type} {cluster : ι → κ} {id : κ → Int}

/-- The cluster in whose queue a node is. -/
def home (cluster : ι → κ) : Node ι κ → Option κ
  | .global => none
  | .cluster c => some c
  | .thread i => some (cluster i)

/-! ## What a thread knows -/

/-- The thread is in no queue. -/
structure Out (cluster : ι → κ) (i : ι) (m : Mem ι κ) : Prop where
  order : i ∉ m.order
  todo : i ∉ m.todo (cluster i)
  head : m.head i = false

/-- The thread is in the local queue, and has not decided to put itself into the global queue. -/
structure Waits (cluster : ι → κ) (i : ι) (m : Mem ι κ) (previous : Node ι κ) : Prop where
  mem : i ∈ m.order ∨ i ∈ m.todo (cluster i)
  head : m.head i = false
  prev : previous = m.localPrev i

/-- The thread before this one in the local queue has released the lock to it, or is the last one of
those in the global queue. -/
structure Decided (cluster : ι → κ) (i : ι) (m : Mem ι κ) (previous : Node ι κ) : Prop where
  waits : Waits cluster i m previous
  own : m.previous (m.node i) = some (m.localPrev i)
  cases : m.order.head? = some i ∧ m.splice previous = false ∨
    (m.todo (cluster i)).head? = some i ∧ m.splice previous = true

/-- The thread is the first one that is in the local queue only. -/
structure Leads (cluster : ι → κ) (i : ι) (m : Mem ι κ) : Prop where
  first : (m.todo (cluster i)).head? = some i
  own : m.previous (m.node i) = some (m.localPrev i)
  cases : m.splice (m.localPrev i) = true ∨ m.previous (m.localPrev i) = none

/-- The thread has put itself and others into the global queue. -/
structure Committed (i : ι) (m : Mem ι κ) (previous : Node ι κ) : Prop where
  mem : i ∈ m.order
  own : m.previous (m.node i) = some (m.localPrev i)
  head : m.head i = true
  prev : previous = m.globalPrev i

/-- The node that a thread has to mark. -/
def Pc.marks : Pc ι κ → Option (Node ι κ)
  | mark _ localTail _ => some localTail
  | _ => none

/-- What the program counter of a thread says about the memory. -/
def Body (cluster : ι → κ) (id : κ → Int) (i : ι) (m : Mem ι κ) : Pc ι κ → Prop
  | .idle _ | .setWait _ => Out cluster i m
  | .setSplice me => Out cluster i m ∧ m.wait me = true
  | .loadQueue me => Out cluster i m ∧ m.wait me = true ∧ m.splice me = false
  | .loadId me tail => (Out cluster i m ∧ m.wait me = true ∧ m.splice me = false) ∧
      home cluster tail = some (cluster i) ∧ m.clusterId tail = id (cluster i)
  | .setId me v => (Out cluster i m ∧ m.wait me = true ∧ m.splice me = false) ∧ v = id (cluster i)
  | .loadTail me | .setPrevious me _ =>
    (Out cluster i m ∧ m.wait me = true ∧ m.splice me = false) ∧ m.clusterId me = id (cluster i)
  | .enter me => (Out cluster i m ∧ m.wait me = true ∧ m.splice me = false) ∧
      m.clusterId me = id (cluster i) ∧ m.previous me ≠ none
  | .link _ previous => Waits cluster i m previous
  | .check _ previous =>
    Waits cluster i m previous ∧ m.previous (m.node i) = some (m.localPrev i)
  | .spinWait _ previous | .spinId _ previous | .spinSplice _ previous =>
    (Waits cluster i m previous ∧ m.previous (m.node i) = some (m.localPrev i)) ∧
      m.previous previous ≠ none
  | .spinOwn _ previous v =>
    ((Waits cluster i m previous ∧ m.previous (m.node i) = some (m.localPrev i)) ∧
      m.previous previous ≠ none) ∧ v = id (cluster i)
  | .testId _ previous | .testSplice _ previous => Decided cluster i m previous
  | .testOwn _ previous v => Decided cluster i m previous ∧ v = id (cluster i)
  | .loadLocal _ => Leads cluster i m
  | .swap _ localTail => Leads cluster i m ∧ ∃ j ∈ m.todo (cluster i), m.node j = localTail
  | .mark _ _ previous | .waitGlobal _ previous => Committed i m previous
  | .critical _ | .unlock _ =>
    m.order.head? = some i ∧ m.previous (m.node i) = some (m.localPrev i)
  | .release _ previous => m.order.head? = some i ∧ previous = some (m.localPrev i)

/-- What a thread knows about the memory. -/
structure At (cluster : ι → κ) (id : κ → Int) (i : ι) (m : Mem ι κ) (p : Pc ι κ) : Prop where
  me : p.me = m.node i
  marks : m.marking i = p.marks
  body : Body cluster id i m p

/-! ## Steps of other threads -/

variable {m m' : Mem ι κ} {i j : ι} {c : κ} {n previous : Node ι κ} {p : Pc ι κ}

/-- What a step of another thread leaves to thread `i`. -/
structure Frame (cluster : ι → κ) (id : κ → Int) (i : ι) (m m' : Mem ι κ) : Prop where
  node : m'.node i = m.node i
  marking : m'.marking i = m.marking i
  head : m'.head i = m.head i
  localPrev : m'.localPrev i = m.localPrev i
  globalPrev : i ∈ m.order → m'.globalPrev i = m.globalPrev i
  out : Out cluster i m → (i ∉ m'.order ∧ i ∉ m'.todo (cluster i)) ∧
    m'.wait (m.node i) = m.wait (m.node i) ∧ m'.splice (m.node i) = m.splice (m.node i)
  order : i ∈ m.order → i ∈ m'.order
  todo : i ∈ m.todo (cluster i) → i ∈ m'.order ∨ i ∈ m'.todo (cluster i)
  first : m.order.head? = some i → m'.order.head? = some i ∧
    (m.splice (m.localPrev i) = false → m'.splice (m.localPrev i) = false)
  next : (m.todo (cluster i)).head? = some i → (m'.todo (cluster i)).head? = some i ∧
    (m.splice (m.localPrev i) = true → m'.splice (m.localPrev i) = true) ∧
    (m.previous (m.localPrev i) = none → m'.previous (m.localPrev i) = none) ∧
    ∀ k ∈ m.todo (cluster i), k ∈ m'.todo (cluster i) ∧ m'.node k = m.node k
  own : m'.previous (m.node i) = m.previous (m.node i)
  previous : ∀ n, m.previous n ≠ none → m'.previous n ≠ none
  clusterId : ∀ n, home cluster n = some (cluster i) → m.clusterId n = id (cluster i) →
    m'.clusterId n = id (cluster i)

namespace Frame

theorem out' (hf : Frame cluster id i m m') (h : Out cluster i m) : Out cluster i m' :=
  ⟨(hf.out h).1.1, (hf.out h).1.2, hf.head.trans h.head⟩

/-- A thread initializes its node without being disturbed. -/
theorem fresh (hf : Frame cluster id i m m') {me : Node ι κ} (hme : me = m.node i)
    (h : Out cluster i m ∧ m.wait me = true ∧ m.splice me = false) :
    Out cluster i m' ∧ m'.wait me = true ∧ m'.splice me = false := by
  obtain ⟨-, hwait, hsplice⟩ := hf.out h.1
  subst hme
  exact ⟨hf.out' h.1, hwait.trans h.2.1, hsplice.trans h.2.2⟩

theorem waits (hf : Frame cluster id i m m') (h : Waits cluster i m previous) :
    Waits cluster i m' previous where
  mem := h.mem.elim (fun hmem => .inl (hf.order hmem)) hf.todo
  head := hf.head.trans h.head
  prev := h.prev.trans hf.localPrev.symm

theorem linked (hf : Frame cluster id i m m') (h : m.previous (m.node i) = some (m.localPrev i)) :
    m'.previous (m'.node i) = some (m'.localPrev i) := by
  rw [hf.node, hf.localPrev, hf.own, h]

theorem decided (hf : Frame cluster id i m m') (h : Decided cluster i m previous) :
    Decided cluster i m' previous where
  waits := hf.waits h.waits
  own := hf.linked h.own
  cases := by
    have hprev := h.waits.prev
    rcases h.cases with ⟨hfirst, hsplice⟩ | ⟨hnext, hsplice⟩
    · obtain ⟨hfirst', hsplice'⟩ := hf.first hfirst
      subst hprev
      exact .inl ⟨hfirst', hsplice' hsplice⟩
    · obtain ⟨hnext', hsplice', -⟩ := hf.next hnext
      subst hprev
      exact .inr ⟨hnext', hsplice' hsplice⟩

theorem leads (hf : Frame cluster id i m m') (h : Leads cluster i m) : Leads cluster i m' where
  first := (hf.next h.first).1
  own := hf.linked h.own
  cases := by
    obtain ⟨-, hsplice, hprevious, -⟩ := hf.next h.first
    rw [hf.localPrev]
    exact h.cases.imp hsplice hprevious

theorem committed (hf : Frame cluster id i m m') (h : Committed i m previous) :
    Committed i m' previous where
  mem := hf.order h.mem
  own := hf.linked h.own
  head := hf.head.trans h.head
  prev := h.prev.trans (hf.globalPrev h.mem).symm

/-- What a thread knows stays true. -/
theorem mono (hf : Frame cluster id i m m') (hhome : home cluster (m.node i) = some (cluster i))
    (h : At cluster id i m p) : At cluster id i m' p := by
  obtain ⟨hme, hmarks, hbody⟩ := h
  refine ⟨hme.trans hf.node.symm, hf.marking.trans hmarks, ?_⟩
  cases p with
  | idle me | setWait me => exact hf.out' hbody
  | setSplice me =>
    obtain ⟨-, hwait, -⟩ := hf.out hbody.1
    refine ⟨hf.out' hbody.1, ?_⟩
    rw [show me = m.node i from hme] at hbody ⊢
    exact hwait.trans hbody.2
  | loadQueue me => exact hf.fresh hme hbody
  | loadId me tail =>
    exact ⟨hf.fresh hme hbody.1, hbody.2.1, hf.clusterId tail hbody.2.1 hbody.2.2⟩
  | setId me v => exact ⟨hf.fresh hme hbody.1, hbody.2⟩
  | loadTail me | setPrevious me tail =>
    have hhome' : home cluster me = some (cluster i) := (congrArg _ hme).trans hhome
    exact ⟨hf.fresh hme hbody.1, hf.clusterId me hhome' hbody.2⟩
  | enter me =>
    have hhome' : home cluster me = some (cluster i) := (congrArg _ hme).trans hhome
    exact ⟨hf.fresh hme hbody.1, hf.clusterId me hhome' hbody.2.1, hf.previous me hbody.2.2⟩
  | link me previous => exact hf.waits hbody
  | check me previous => exact ⟨hf.waits hbody.1, hf.linked hbody.2⟩
  | spinWait me previous | spinId me previous | spinSplice me previous =>
    exact ⟨⟨hf.waits hbody.1.1, hf.linked hbody.1.2⟩, hf.previous previous hbody.2⟩
  | spinOwn me previous v =>
    exact ⟨⟨⟨hf.waits hbody.1.1.1, hf.linked hbody.1.1.2⟩, hf.previous previous hbody.1.2⟩,
      hbody.2⟩
  | testId me previous | testSplice me previous => exact hf.decided hbody
  | testOwn me previous v => exact ⟨hf.decided hbody.1, hbody.2⟩
  | loadLocal me => exact hf.leads hbody
  | swap me localTail =>
    obtain ⟨hleads, j, hj, hnode⟩ := hbody
    obtain ⟨-, -, -, hmembers⟩ := hf.next hleads.first
    obtain ⟨hj', hnode'⟩ := hmembers j hj
    exact ⟨hf.leads hleads, j, hj', hnode'.trans hnode⟩
  | mark me localTail previous | waitGlobal me previous => exact hf.committed hbody
  | critical me | unlock me => exact ⟨(hf.first hbody.1).1, hf.linked hbody.2⟩
  | release me previous =>
    refine ⟨(hf.first hbody.1).1, ?_⟩
    rw [hf.localPrev]
    exact hbody.2

end Frame

/-! ## The lines -/

variable [DecidableEq κ]

/-- The threads of a cluster in the global queue. -/
def committed (cluster : ι → κ) (m : Mem ι κ) (c : κ) : List ι :=
  m.order.filter fun i => cluster i = c

/-- The threads in the local queue of a cluster. -/
def pending (cluster : ι → κ) (m : Mem ι κ) (c : κ) : List ι := committed cluster m c ++ m.todo c

/-- The node before those of the threads in the local queue only. -/
def edge (cluster : ι → κ) (m : Mem ι κ) (c : κ) : Node ι κ :=
  endOf m.node (m.last c) (committed cluster m c)

/-- The lines of the threads, and what their nodes hold. -/
structure Inv (cluster : ι → κ) (id : κ → Int) (m : Mem ι κ) : Prop where
  order_nodup : m.order.Nodup
  todo_nodup : ∀ c, (m.todo c).Nodup
  todo_cluster : ∀ c, ∀ i ∈ m.todo c, cluster i = c ∧ i ∉ m.order
  node_inj : Function.Injective m.node
  node_ne_last : ∀ i c, m.node i ≠ m.last c
  home_node : ∀ i, home cluster (m.node i) = some (cluster i)
  home_last : ∀ c, home cluster (m.last c) = some c
  popped : m.popped = .global ∨ ∃ c, m.popped = m.last c
  globalLine : Linked m.node m.globalPrev m.popped m.order
  localLine : ∀ c, Linked m.node m.localPrev (m.last c) (pending cluster m c)
  globQueue : m.globQueue = endOf m.node m.popped m.order
  localQueue : ∀ c, m.localQueue c = endOf m.node (m.last c) (pending cluster m c)
  clusterId : ∀ c, m.clusterId (m.last c) = id c
  ready : ∀ c, ∀ i ∈ pending cluster m c, m.wait (m.node i) = true ∧
    m.clusterId (m.node i) = id c ∧ m.previous (m.node i) ≠ none
  unspliced : ∀ c, ∀ i ∈ m.todo c, m.splice (m.node i) = false
  follower : ∀ i ∈ m.order, m.head i = false → m.globalPrev i = m.localPrev i ∧
    m.splice (m.localPrev i) = false ∧ m.previous (m.localPrev i) ≠ none
  marked : ∀ c, m.previous (edge cluster m c) = none ∨ m.splice (edge cluster m c) = true ∨
    ∃ i, m.marking i = some (edge cluster m c)
  marking_inj : ∀ i j n, m.marking i = some n → m.marking j = some n → i = j
  marking : ∀ i n, m.marking i = some n → ∃ l₁ l₂ j, m.order = l₁ ++ i :: l₂ ∧ j ∈ i :: l₂ ∧
    m.node j = n ∧ edge cluster m (cluster j) = n ∧ m.splice n = false

theorem mem_committed : i ∈ committed cluster m c ↔ i ∈ m.order ∧ cluster i = c := by
  simp [committed]

theorem mem_pending :
    i ∈ pending cluster m c ↔ i ∈ m.order ∧ cluster i = c ∨ i ∈ m.todo c := by
  rw [pending, List.mem_append, mem_committed]

theorem pending_of (h : i ∈ m.order ∨ i ∈ m.todo (cluster i)) :
    i ∈ pending cluster m (cluster i) :=
  mem_pending.mpr (h.imp_left fun h => ⟨h, rfl⟩)

theorem Inv.cluster_eq (hi : Inv cluster id m) (h : i ∈ pending cluster m c) : cluster i = c :=
  (mem_pending.mp h).elim (fun h => h.2) fun h => (hi.todo_cluster c i h).1

/-- The thread is not in a queue, so that no other thread knows its node. -/
theorem Inv.out_not_pending (hi : Inv cluster id m) (h : Out cluster i m) :
    i ∉ pending cluster m c := by
  intro hmem
  obtain rfl := hi.cluster_eq hmem
  rcases mem_pending.mp hmem with hmem | hmem
  · exact h.order hmem.1
  · exact h.todo hmem

/-- The node before the one of a thread in the local queue is the one that has been released last,
or that of another thread in the queue. -/
theorem Inv.localPrev_cases (hi : Inv cluster id m) (h : i ∈ pending cluster m c) :
    (∃ l, pending cluster m c = i :: l ∧ m.localPrev i = m.last c) ∨
      ∃ j ∈ pending cluster m c, m.localPrev i = m.node j :=
  (hi.localLine c).prev_cases h

theorem Inv.localPrev_ne (hi : Inv cluster id m) (h : i ∈ pending cluster m c)
    (hj : Out cluster j m) : m.localPrev i ≠ m.node j := by
  rcases hi.localPrev_cases h with ⟨-, -, heq⟩ | ⟨k, hk, heq⟩
  · rw [heq]
    exact (hi.node_ne_last j c).symm
  · rw [heq]
    exact fun hkj => hi.out_not_pending hj (hi.node_inj hkj ▸ hk)

/-- The cluster of the node before. -/
theorem Inv.home_localPrev (hi : Inv cluster id m) (h : i ∈ pending cluster m c) :
    home cluster (m.localPrev i) = some c ∧ m.clusterId (m.localPrev i) = id c := by
  rcases hi.localPrev_cases h with ⟨-, -, heq⟩ | ⟨k, hk, heq⟩
  · rw [heq]
    exact ⟨hi.home_last c, hi.clusterId c⟩
  · rw [heq, hi.home_node, hi.cluster_eq hk]
    exact ⟨rfl, (hi.ready c k hk).2.1⟩

/-- The tail of a local queue. -/
theorem Inv.home_localQueue (hi : Inv cluster id m) (c : κ) :
    home cluster (m.localQueue c) = some c ∧ m.clusterId (m.localQueue c) = id c := by
  rw [hi.localQueue c]
  rcases Line.endOf_cases m.node (m.last c) (pending cluster m c) with heq | ⟨k, hk, heq⟩
  · rw [heq]
    exact ⟨hi.home_last c, hi.clusterId c⟩
  · rw [heq, hi.home_node, hi.cluster_eq hk]
    exact ⟨rfl, (hi.ready c k hk).2.1⟩

/-- The first thread that is in the local queue only comes after those in the global queue. -/
theorem Inv.localPrev_first (hi : Inv cluster id m) (h : (m.todo c).head? = some i) :
    m.localPrev i = edge cluster m c := by
  obtain ⟨l, hl⟩ := List.head?_eq_some_iff.mp h
  have hline := hi.localLine c
  rw [pending, Line.linked_append, hl] at hline
  exact hline.2.1

/-- A thread whose predecessor has released the lock is the first one of its cluster. -/
theorem Inv.pending_first (hi : Inv cluster id m) (h : i ∈ pending cluster m c)
    (hwait : m.wait (m.localPrev i) ≠ true) :
    ∃ l, pending cluster m c = i :: l ∧ m.localPrev i = m.last c := by
  rcases hi.localPrev_cases h with h | ⟨k, hk, heq⟩
  · exact h
  · rw [heq] at hwait
    exact absurd (hi.ready c k hk).1 hwait

/-- A thread whose predecessor in the global queue has released the lock is the first one. -/
theorem Inv.order_first (hi : Inv cluster id m) (h : i ∈ m.order)
    (hwait : m.wait (m.globalPrev i) ≠ true) : m.order.head? = some i := by
  rcases hi.globalLine.prev_cases h with ⟨l, hl, -⟩ | ⟨k, hk, heq⟩
  · rw [hl, List.head?_cons]
  · rw [heq] at hwait
    exact absurd (hi.ready _ k (pending_of (.inl hk))).1 hwait

/-- The node before those in the local queue only is not that of a thread in no queue. -/
theorem Inv.edge_ne (hi : Inv cluster id m) (h : Out cluster i m) (c : κ) :
    edge cluster m c ≠ m.node i := by
  rcases Line.endOf_cases m.node (m.last c) (committed cluster m c) with heq | ⟨k, hk, heq⟩
  · exact heq.trans_ne (hi.node_ne_last i c).symm
  · exact heq.trans_ne fun hki => h.order (hi.node_inj hki ▸ (mem_committed.mp hk).1)

/-- A node that is going to be marked is that of a thread in the global queue. -/
theorem Inv.marking_node (hi : Inv cluster id m) (h : m.marking i = some n) :
    ∃ j ∈ m.order, m.node j = n := by
  obtain ⟨l₁, l₂, j, horder, hj, hnode, -⟩ := hi.marking i n h
  refine ⟨j, ?_, hnode⟩
  rw [horder]
  exact List.mem_append_right l₁ hj

/-- No thread in the global queue knows a node that is going to be marked. -/
theorem Inv.localPrev_ne_marking (hi : Inv cluster id m) (h : m.marking i = some n)
    (hj : j ∈ m.order) : m.localPrev j ≠ n := by
  obtain ⟨l₁, l₂, k, horder, -, hnode, hedge, -⟩ := hi.marking i n h
  intro heq
  have hhome := (hi.home_localPrev (pending_of (.inl hj))).1
  rw [heq, ← hnode, hi.home_node] at hhome
  have hcluster : cluster k = cluster j := Option.some.inj hhome
  have hline := (Line.linked_append.mp (hi.localLine (cluster j))).1
  refine hline.prev_ne_endOf (hi.order_nodup.filter _) hi.node_inj
    (fun k => hi.node_ne_last k (cluster j)) (mem_committed.mpr ⟨hj, rfl⟩) (heq.trans ?_)
  rw [← hedge, hcluster, edge]

end ConcurrencyKit.Hclh
