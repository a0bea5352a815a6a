/-
BcosScheduler/LockGraphInvariant.lean

The representation of the lock graph along any sequence of operations.

`Wf` says how the entries of `m_vertexes` and the graph hang together.  Two
things are beyond a single operation: no vertex is stored twice, and the
vertex of a context has an edge.  The second is read off the lock table: the
vertex of a context is entered by an acquire, which leaves an entry of the
context, and is removed by the release that drops its last entry.
-/
import BcosScheduler.DeadLock

namespace BcosScheduler

/-- The edge goes out of the vertex or into it. -/
def LockEdge.Incident (e : LockEdge) (i : VertexID) : Prop := e.source = i ∨ e.target = i

namespace GraphKeyLocks

variable {g : GraphKeyLocks}

/-- The entries of a frame are the edges with its label at the vertex of its
context. -/
theorem Wf.holds_iff (h : g.Wf) {c : ContextID} {i : VertexID}
    (hi : (Vertex.context c, i) ∈ g.vertexes) (s : Seq) :
    g.table.Holds c s ↔ ∃ e ∈ g.graph.edges, e.Incident i ∧ e.seq = s := by
  constructor
  · rintro ⟨k, ⟨ki, ci, -, hci, he⟩ | ⟨ki, ci, -, hci, he⟩⟩
    · obtain rfl := h.id_eq hci hi
      exact ⟨_, he, Or.inr rfl, rfl⟩
    · obtain rfl := h.id_eq hci hi
      exact ⟨_, he, Or.inl rfl, rfl⟩
  · rintro ⟨e, he, hinc, rfl⟩
    obtain ⟨contract, key, c', ⟨hk, hc⟩ | ⟨hc, hk⟩⟩ := h.joins e he
    · -- an ownership: the context is at the target
      rcases hinc with rfl | rfl
      · exact absurd rfl (h.key_ne_context hk hi)
      · obtain rfl := h.context_inj hc hi
        exact ⟨(contract, key), Or.inl ⟨_, _, hk, hc, he⟩⟩
    · rcases hinc with rfl | rfl
      · obtain rfl := h.context_inj hc hi
        exact ⟨(contract, key), Or.inr ⟨_, _, hk, hc, he⟩⟩
      · exact absurd rfl (h.key_ne_context hk hi)

/-! ### Which vertices an operation stores -/

/-- No vertex is stored twice, and every context that has one owns a key or
waits for one. -/
structure Attached (g : GraphKeyLocks) : Prop where
  vertices_nodup : g.graph.vertices.Nodup
  holds : ∀ ⦃c i⦄, (Vertex.context c, i) ∈ g.vertexes → ∃ s, g.table.Holds c s

theorem touch_vertexes {v : Vertex} {p : Vertex × VertexID}
    (hp : p ∈ (g.touch v).1.vertexes) : p ∈ g.vertexes ∨ p.1 = v := by
  unfold touch at hp
  rcases hf : OrderedMap.find? v g.vertexes with _ | id
  · rw [hf] at hp
    rcases OrderedMap.mem_of_mem_emplace hp with rfl | hp
    · exact Or.inr rfl
    · exact Or.inl hp
  · rw [hf] at hp
    exact Or.inl hp

/-- A fresh descriptor names no stored vertex. -/
theorem Wf.nodup_touch (h : g.Wf) (hnodup : g.graph.vertices.Nodup) (v : Vertex) :
    (g.touch v).1.graph.vertices.Nodup := by
  unfold touch
  rcases OrderedMap.find? v g.vertexes with _ | id
  · refine List.nodup_cons.mpr ⟨fun hmem => ?_, hnodup⟩
    exact absurd (h.id_lt ((h.vertices_iff _ _).mp hmem)) (lt_irrefl _)
  · exact hnodup

@[simp] theorem addEdge_vertices {source target : VertexID} {seq : Seq} :
    (g.addEdge source target seq).graph.vertices = g.graph.vertices := by
  unfold addEdge
  split_ifs <;> rfl

/-- An acquire stores the key and the context, and no other vertex. -/
theorem Wf.acquireKeyLock_touches (h : g.Wf) (contract key : String) (c : ContextID) (s : Seq) :
    (g.acquireKeyLock contract key c s).1.vertexes =
        ((g.touch (.keyLock contract key)).1.touch (.context c)).1.vertexes ∧
      (g.acquireKeyLock contract key c s).1.graph.vertices =
        ((g.touch (.keyLock contract key)).1.touch (.context c)).1.graph.vertices := by
  simp only [GraphKeyLocks.acquireKeyLock, h.touchKeyLock_eq, touchContext_eq]
  split_ifs
  · exact ⟨addEdge_vertexes, addEdge_vertices⟩
  · exact ⟨addEdge_vertexes, addEdge_vertices⟩

/-! ### What the operations preserve -/

theorem Attached.empty : Attached {} where
  vertices_nodup := List.nodup_nil
  holds := by simp

theorem Attached.acquireKeyLock (ha : g.Attached) (h : g.Wf) (contract key : String)
    (c : ContextID) (s : Seq) : (g.acquireKeyLock contract key c s).1.Attached := by
  obtain ⟨hvertexes, hvertices⟩ := h.acquireKeyLock_touches contract key c s
  constructor
  · rw [hvertices]
    have hkey := h.touched (.keyLock contract key)
    exact hkey.wf.nodup_touch (h.nodup_touch ha.vertices_nodup _) _
  · intro c' i hi
    rw [h.table_acquireKeyLock]
    by_cases hc : c' = c
    · subst hc
      exact ⟨s, LockTable.holds_acquire_self⟩
    · -- another context had its vertex before
      have hold : (Vertex.context c', i) ∈ g.vertexes := by
        rw [hvertexes] at hi
        rcases touch_vertexes hi with hi | hi
        · rcases touch_vertexes hi with hi | hi
          · exact hi
          · cases hi
        · exact absurd (by simpa using hi) hc
      obtain ⟨s', hs'⟩ := ha.holds hold
      exact ⟨s', hs'.acquire_of_ne hc⟩

/-- The scan of a release: some edge at the vertex has another label. -/
theorem allOfFrame_eq_false_iff {i : VertexID} {s : Seq} :
    g.allOfFrame i s = false ↔ ∃ e ∈ g.graph.edges, e.Incident i ∧ e.seq ≠ s := by
  rw [Bool.eq_false_iff, ne_eq, allOfFrame, Bool.and_eq_true]
  simp only [List.all_eq_true, LockGraph.inEdges, LockGraph.outEdges, List.mem_filter,
    decide_eq_true_eq, and_imp]
  constructor
  · intro hnot
    by_contra hnone
    refine hnot ⟨fun e he hinc => ?_, fun e he hinc => ?_⟩
    · by_contra hs
      exact hnone ⟨e, he, Or.inr hinc, hs⟩
    · by_contra hs
      exact hnone ⟨e, he, Or.inl hinc, hs⟩
  · rintro ⟨e, he, hinc | hinc, hs⟩ ⟨hin, hout⟩
    · exact hs (hout e he hinc)
    · exact hs (hin e he hinc)

/-- **A release removes the vertex of a context with its last edge**: all other
vertices stay, and that of the context stays iff an edge with another label is
at it. -/
theorem Wf.mem_releaseKeyLocks (h : g.Wf) (c : ContextID) (s : Seq) {v : Vertex}
    {i : VertexID} : (v, i) ∈ (g.releaseKeyLocks c s).vertexes ↔ (v, i) ∈ g.vertexes ∧
      (v = .context c → ∃ e ∈ g.graph.edges, e.Incident i ∧ e.seq ≠ s) := by
  have ht := h.touched (.context c)
  rw [releaseKeyLocks_eq]
  split_ifs with hall
  · have hnone : ¬ ∃ e ∈ g.graph.edges, e.Incident (g.touch (.context c)).2 ∧ e.seq ≠ s := by
      rw [← ht.edges, ← allOfFrame_eq_false_iff, hall]
      simp
    show (v, i) ∈ OrderedMap.erase (.context c) (g.touch (.context c)).1.vertexes ↔ _
    rw [OrderedMap.mem_erase]
    constructor
    · rintro ⟨hv, hne⟩
      rcases touch_vertexes hv with hv | hv
      · exact ⟨hv, fun hc => absurd hc hne⟩
      · exact absurd hv hne
    · rintro ⟨hv, hother⟩
      refine ⟨ht.mono _ hv, fun hc => hnone ?_⟩
      obtain rfl : v = .context c := hc
      rw [← ht.wf.id_eq (ht.mono _ hv) ht.mem]
      exact hother rfl
  · have hsome : ∃ e ∈ g.graph.edges, e.Incident (g.touch (.context c)).2 ∧ e.seq ≠ s := by
      rw [← ht.edges, ← allOfFrame_eq_false_iff, Bool.eq_false_iff]
      exact hall
    show (v, i) ∈ (g.touch (.context c)).1.vertexes ↔ _
    -- the vertex has an edge, so it was not entered just now
    have hold : (Vertex.context c, (g.touch (.context c)).2) ∈ g.vertexes := by
      rcases ht.old _ ht.mem with hold | hnew
      · exact hold
      · obtain ⟨e, he, hinc, -⟩ := hsome
        have hlt := h.edge_lt he
        rcases hinc with hs | hs
        · exact absurd hlt.1 (by rw [hs, hnew]; exact lt_irrefl _)
        · exact absurd hlt.2 (by rw [hs, hnew]; exact lt_irrefl _)
    constructor
    · intro hv
      refine ⟨?_, fun hc => ?_⟩
      · rcases touch_vertexes hv with hv | hc
        · exact hv
        · obtain rfl : v = .context c := hc
          rw [ht.wf.id_eq hv ht.mem]
          exact hold
      · subst hc
        rw [ht.wf.id_eq hv ht.mem]
        exact hsome
    · exact fun hv => ht.mono _ hv.1

/-- **A release drops the edges of the frame**, and no other edge. -/
theorem Wf.mem_edges_releaseKeyLocks (h : g.Wf) (c : ContextID) (s : Seq) {e : LockEdge} :
    e ∈ (g.releaseKeyLocks c s).graph.edges ↔ e ∈ g.graph.edges ∧
      ¬ (e.seq = s ∧ ∃ i, (Vertex.context c, i) ∈ g.vertexes ∧ e.Incident i) := by
  have ht := h.touched (.context c)
  have hedges : (g.releaseKeyLocks c s).graph.edges =
      ((g.touch (.context c)).1.removeFrame (g.touch (.context c)).2 s).graph.edges := by
    rw [releaseKeyLocks_eq]
    split_ifs
    · rfl
    · rfl
  rw [hedges, removeFrame, List.mem_filter, decide_eq_true_eq, ht.edges]
  refine and_congr_right fun he => not_congr ⟨?_, ?_⟩
  · rintro ⟨hinc, hs⟩
    refine ⟨hs, (g.touch (.context c)).2, ?_, Or.symm hinc⟩
    -- an edge ends at old vertices only
    rcases ht.old _ ht.mem with hold | hnew
    · exact hold
    · have hlt := h.edge_lt he
      rcases hinc with hi | hi
      · exact absurd hlt.2 (by rw [hi, hnew]; exact lt_irrefl _)
      · exact absurd hlt.1 (by rw [hi, hnew]; exact lt_irrefl _)
  · rintro ⟨hs, i, hi, hinc⟩
    rw [ht.wf.id_eq (ht.mono _ hi) ht.mem] at hinc
    exact ⟨Or.symm hinc, hs⟩

theorem Attached.releaseKeyLocks (ha : g.Attached) (h : g.Wf) (c : ContextID) (s : Seq) :
    (g.releaseKeyLocks c s).Attached := by
  constructor
  · have hnodup := h.nodup_touch ha.vertices_nodup (.context c)
    rw [releaseKeyLocks_eq]
    split_ifs
    · exact hnodup.filter _
    · exact hnodup
  · intro c' i hstays
    obtain ⟨hi, hother⟩ := (h.mem_releaseKeyLocks c s).mp hstays
    rw [(h.releaseKeyLocks c s).2]
    by_cases hc : c' = c
    · subst hc
      obtain ⟨e, he, hinc, hs⟩ := hother rfl
      have hholds := (h.holds_iff hi e.seq).mpr ⟨e, he, hinc, rfl⟩
      exact ⟨e.seq, LockTable.holds_release_iff.mpr ⟨hholds, fun hcs => hs hcs.2⟩⟩
    · obtain ⟨s', hs'⟩ := ha.holds hi
      exact ⟨s', LockTable.holds_release_iff.mpr ⟨hs', fun hcs => hc hcs.1⟩⟩

theorem Attached.operate (ha : g.Attached) (h : g.Wf) (op : Operation) :
    (g.operate op).1.Attached :=
  (operate_induction (P := fun g _ => g.Wf ∧ g.Attached) (h := [])
    (fun contract key c s hg =>
      ⟨hg.1.acquireKeyLock contract key c s, hg.2.acquireKeyLock hg.1 contract key c s⟩)
    (fun c s hg => ⟨(hg.1.releaseKeyLocks c s).1, hg.2.releaseKeyLocks hg.1 c s⟩) ⟨h, ha⟩ op).2

/-- Where the locks are stored does not matter. -/
theorem table_reordered {g' : GraphKeyLocks} (hr : Reordered g g') : g'.table = g.table := by
  ext k c s
  · simp only [table, hr.vertexes, hr.edges.mem_iff]
  · simp only [table, hr.vertexes, hr.edges.mem_iff]

theorem Attached.reordered (ha : g.Attached) {g' : GraphKeyLocks} (hr : Reordered g g') :
    g'.Attached where
  vertices_nodup := hr.vertices.nodup_iff.mpr ha.vertices_nodup
  holds := by
    rw [hr.vertexes, table_reordered hr]
    exact ha.holds

theorem Reachable.attached (h : Reachable g) : g.Attached := by
  induction h with
  | empty => exact .empty
  | operate op hg ih => exact ih.operate hg.wf op
  | reorder _ hr ih => exact ih.reordered hr

/-! ### The representation -/

/-- `m_vertexes` and the graph store the same vertices, each once. -/
theorem Wf.vertices_perm (h : g.Wf) (hnodup : g.graph.vertices.Nodup) :
    g.graph.vertices.Perm (g.vertexes.map Prod.swap) := by
  have hasc : g.vertexes.Nodup := List.Pairwise.imp (fun {a b} hab => by
    rintro rfl
    exact lt_irrefl _ hab) h.ascending
  refine (List.perm_ext_iff_of_nodup hnodup (hasc.map Prod.swap_injective)).mpr ?_
  rintro ⟨id, v⟩
  rw [h.vertices_iff, List.mem_map]
  constructor
  · exact fun hv => ⟨(v, id), hv, rfl⟩
  · rintro ⟨⟨v', id'⟩, hv, heq⟩
    cases heq
    exact hv

theorem Wf.touch_of_mem (h : g.Wf) {v : Vertex} {id : VertexID} (hv : (v, id) ∈ g.vertexes) :
    g.touch v = (g, id) := by
  unfold touch
  rw [(OrderedMap.find?_eq_some_iff h.ascending).mpr hv]

theorem touch_of_not_mem {v : Vertex} (hv : ∀ id, (v, id) ∉ g.vertexes) :
    g.touch v = g.enterVertex v := by
  have hnone : OrderedMap.find? v g.vertexes = none := by
    refine OrderedMap.find?_eq_none_iff.mpr ?_
    rintro ⟨v', id⟩ hmem rfl
    exact hv id hmem
  unfold touch
  rw [hnone]

/-- **The representation of the lock graph.**  After any sequence of operations, and
in whatever order the graph stores its vertices and edges: `m_vertexes` has one entry for
a context or a (contract, key) pair, and these are the vertices of the graph, each stored
once under a descriptor of its own; `touchContext` and the mixed-type lookup of
`touchKeyLock` find an entry again and enter a vertex only where there is none; every edge
joins a context and a key; no two edges have the same source, target and label; every
context vertex has an edge; and a release drops the edges of its frame at the vertex of its
context, and that vertex iff no edge is left at it. -/
theorem lockGraph_representation (h : Reachable g) :
    OrderedMap.Ascending g.vertexes ∧
    g.graph.vertices.Perm (g.vertexes.map Prod.swap) ∧
    (g.graph.vertices.map Prod.fst).Nodup ∧
    (∀ contract key id, (Vertex.keyLock contract key, id) ∈ g.vertexes →
      g.touchKeyLock contract key = (g, id)) ∧
    (∀ contract key, (∀ id, (Vertex.keyLock contract key, id) ∉ g.vertexes) →
      g.touchKeyLock contract key = g.enterVertex (.keyLock contract key)) ∧
    (∀ c id, (Vertex.context c, id) ∈ g.vertexes → g.touchContext c = (g, id)) ∧
    (∀ c, (∀ id, (Vertex.context c, id) ∉ g.vertexes) →
      g.touchContext c = g.enterVertex (.context c)) ∧
    (∀ e ∈ g.graph.edges, g.Joins e) ∧
    (g.graph.edges.map fun e => (e.source, e.target, e.seq)).Nodup ∧
    (∀ c i, (Vertex.context c, i) ∈ g.vertexes → ∃ e ∈ g.graph.edges, e.Incident i) ∧
    ∀ c s,
      (∀ e, e ∈ (g.releaseKeyLocks c s).graph.edges ↔ e ∈ g.graph.edges ∧
        ¬ (e.seq = s ∧ ∃ i, (Vertex.context c, i) ∈ g.vertexes ∧ e.Incident i)) ∧
      ∀ v i, (v, i) ∈ (g.releaseKeyLocks c s).vertexes ↔ (v, i) ∈ g.vertexes ∧
        (v = .context c → ∃ e ∈ (g.releaseKeyLocks c s).graph.edges, e.Incident i) := by
  have hwf := h.wf
  have ha := h.attached
  refine ⟨hwf.ascending, hwf.vertices_perm ha.vertices_nodup, ?_, ?_, ?_, ?_, ?_, hwf.joins, ?_,
    ?_, fun c s => ⟨fun e => hwf.mem_edges_releaseKeyLocks c s, fun v i => ?_⟩⟩
  · refine (List.nodup_map_iff_inj_on ha.vertices_nodup).mpr ?_
    rintro ⟨id, v⟩ hv ⟨id', v'⟩ hv' heq
    obtain rfl : id = id' := heq
    rw [hwf.vertices_iff] at hv hv'
    rw [hwf.id_unique hv hv']
  · intro contract key id hmem
    rw [hwf.touchKeyLock_eq, hwf.touch_of_mem hmem]
  · intro contract key hnone
    rw [hwf.touchKeyLock_eq, touch_of_not_mem hnone]
  · intro c id hmem
    rw [touchContext_eq, hwf.touch_of_mem hmem]
  · intro c hnone
    rw [touchContext_eq, touch_of_not_mem hnone]
  · refine hwf.edges_nodup.map ?_
    rintro ⟨source, target, seq⟩ ⟨source', target', seq'⟩ heq
    simp only [Prod.mk.injEq] at heq
    obtain ⟨rfl, rfl, rfl⟩ := heq
    rfl
  · intro c i hi
    obtain ⟨s, hs⟩ := ha.holds hi
    obtain ⟨e, he, hinc, -⟩ := (hwf.holds_iff hi s).mp hs
    exact ⟨e, he, hinc⟩
  · rw [hwf.mem_releaseKeyLocks c s]
    refine and_congr_right fun hv => forall_congr' fun hc => ?_
    subst hc
    constructor
    · rintro ⟨e, he, hinc, hs⟩
      exact ⟨e, (hwf.mem_edges_releaseKeyLocks c s).mpr ⟨he, fun hrel => hs hrel.1⟩, hinc⟩
    · rintro ⟨e, he, hinc⟩
      obtain ⟨he, hkept⟩ := (hwf.mem_edges_releaseKeyLocks c s).mp he
      exact ⟨e, he, hinc, fun hs => hkept ⟨hs, i, hv, hinc⟩⟩

/-- Context 0 of the embrace keeps its vertex when the first of its two frames is released:
the request of the second is left. -/
theorem lockGraph_representation_embrace :
    (Vertex.context 0, 1) ∈ ((operateAll embrace).1.reverseEdges.releaseKeyLocks 0 0).vertexes ∧
    (operateAll embrace).1.reverseEdges.touchKeyLock "y" "l" =
      ((operateAll embrace).1.reverseEdges, 2) := by
  have hreach : Reachable (operateAll embrace).1.reverseEdges :=
    (reachable_operateAll embrace).reorder ⟨rfl, .refl _, List.reverse_perm _, rfl⟩
  obtain ⟨-, -, -, hfound, -, -, -, -, -, -, hrelease⟩ := lockGraph_representation hreach
  refine ⟨((hrelease 0 0).2 _ _).mpr ⟨by decide, fun _ => ?_⟩, hfound "y" "l" 2 (by decide)⟩
  exact ⟨⟨1, 2, 1⟩, ((hrelease 0 0).1 _).mpr ⟨by decide, fun hs => by simp at hs⟩, Or.inl rfl⟩

end GraphKeyLocks

end BcosScheduler
