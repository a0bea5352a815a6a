/-
BcosScheduler/DeadLock.lean

`detectDeadLock` against the abstract lock table.  The depth-first search
runs on the vertices of the graph, where a wait is two edges long
(context → key → context); the results are about the waits-for relation of
the table, whose steps go from context to context.

The vertex order and the edge order of the graph do not occur in
`detectDeadLock_iff`, so two graphs that store the same locks answer alike
(`detectDeadLock_congr`).  `Reachable` lets the storage be reordered between
any two operations.
-/
import BcosScheduler.LockHistory

namespace BcosScheduler

namespace GraphKeyLocks

open Relation

/-- Targets of the out-edges of a vertex. -/
def succ (g : GraphKeyLocks) (u : VertexID) : List VertexID :=
  (g.graph.outEdges u).map LockEdge.target

variable {g : GraphKeyLocks}

theorem edge_succ_iff {u v : VertexID} :
    Dfs.Edge g.succ u v ↔ ∃ s, (⟨u, v, s⟩ : LockEdge) ∈ g.graph.edges := by
  simp only [Dfs.Edge, succ, LockGraph.outEdges, List.mem_map, List.mem_filter,
    decide_eq_true_eq]
  constructor
  · rintro ⟨e, ⟨he, rfl⟩, rfl⟩
    exact ⟨e.seq, he⟩
  · rintro ⟨s, he⟩
    exact ⟨_, ⟨he, rfl⟩, rfl⟩

/-! ### Waits are two edges long -/

theorem WaitsFor.edges (h : g.Wf) {c c' : ContextID} (hw : g.table.WaitsFor c c') :
    ∃ i k j, (Vertex.context c, i) ∈ g.vertexes ∧ (Vertex.context c', j) ∈ g.vertexes ∧
      Dfs.Edge g.succ i k ∧ Dfs.Edge g.succ k j := by
  obtain ⟨k, s, s', ⟨ki, ci, hki, hci, he⟩, ⟨ki', cj, hki', hcj, he'⟩⟩ := hw
  obtain rfl := h.id_eq hki hki'
  exact ⟨ci, ki, cj, hci, hcj, edge_succ_iff.mpr ⟨s, he⟩, edge_succ_iff.mpr ⟨s', he'⟩⟩

/-- An edge out of a context is a request, an edge out of a key an ownership. -/
theorem Wf.edge_cases (h : g.Wf) {u v : VertexID} (he : Dfs.Edge g.succ u v) :
    (∃ k c s, (Vertex.context c, u) ∈ g.vertexes ∧
      (Vertex.keyLock k.1 k.2, v) ∈ g.vertexes ∧ g.table.req k c s) ∨
    ∃ k c s, (Vertex.keyLock k.1 k.2, u) ∈ g.vertexes ∧
      (Vertex.context c, v) ∈ g.vertexes ∧ g.table.own k c s := by
  obtain ⟨s, he⟩ := edge_succ_iff.mp he
  obtain ⟨contract, key, c, ⟨hk, hc⟩ | ⟨hc, hk⟩⟩ := h.joins _ he
  · exact Or.inr ⟨(contract, key), c, s, hk, hc, ⟨u, v, hk, hc, he⟩⟩
  · exact Or.inl ⟨(contract, key), c, s, hc, hk, ⟨v, u, hk, hc, he⟩⟩

/-- Walking from a context: at a context the walk is a chain of waits, at a key
it is a chain of waits and one request. -/
theorem Wf.walk (h : g.Wf) {c : ContextID} {i v : VertexID}
    (hi : (Vertex.context c, i) ∈ g.vertexes) (hr : TransGen (Dfs.Edge g.succ) i v) :
    (∀ c', (Vertex.context c', v) ∈ g.vertexes → TransGen g.table.WaitsFor c c') ∧
    ∀ k, (Vertex.keyLock k.1 k.2, v) ∈ g.vertexes →
      ∃ c' s, ReflTransGen g.table.WaitsFor c c' ∧ g.table.req k c' s := by
  induction hr with
  | @single v he =>
      rcases h.edge_cases he with ⟨k, c₁, s, hu, hv, hreq⟩ | ⟨k, c₁, s, hu, hv, hown⟩
      · obtain rfl := h.context_inj hu hi
        refine ⟨fun c' hc' => absurd rfl (h.key_ne_context hv hc'), fun k' hk' => ?_⟩
        obtain rfl := h.keyLock_inj hv hk'
        exact ⟨_, s, ReflTransGen.refl, hreq⟩
      · exact absurd rfl (h.key_ne_context hu hi)
  | @tail v w _ he ih =>
      rcases h.edge_cases he with ⟨k, c₁, s, hv, hw, hreq⟩ | ⟨k, c₁, s, hv, hw, hown⟩
      · refine ⟨fun c' hc' => absurd rfl (h.key_ne_context hw hc'), fun k' hk' => ?_⟩
        obtain rfl := h.keyLock_inj hw hk'
        exact ⟨c₁, s, (ih.1 c₁ hv).to_reflTransGen, hreq⟩
      · refine ⟨fun c' hc' => ?_, fun k' hk' => absurd rfl (h.key_ne_context hk' hw)⟩
        obtain rfl := h.context_inj hw hc'
        obtain ⟨c₂, s', hchain, hreq⟩ := ih.2 k hv
        exact TransGen.tail' hchain ⟨k, s', s, hreq, hown⟩

theorem Wf.transGen_edges (h : g.Wf) {c c' : ContextID} (hw : TransGen g.table.WaitsFor c c')
    {i j : VertexID} (hi : (Vertex.context c, i) ∈ g.vertexes)
    (hj : (Vertex.context c', j) ∈ g.vertexes) : TransGen (Dfs.Edge g.succ) i j := by
  induction hw generalizing j with
  | single hw =>
      obtain ⟨i', k, j', hi', hj', h₁, h₂⟩ := WaitsFor.edges h hw
      obtain rfl := h.id_eq hi hi'
      obtain rfl := h.id_eq hj hj'
      exact TransGen.head h₁ (TransGen.single h₂)
  | tail _ hw ih =>
      obtain ⟨i', k, j', hi', hj', h₁, h₂⟩ := WaitsFor.edges h hw
      obtain rfl := h.id_eq hj hj'
      exact ((ih hi').tail h₁).tail h₂

/-! ### Exactness -/

/-- A cycle of the waits-for relation is reachable from `c`. -/
def DeadLockFrom (t : LockTable KeyLock ContextID Seq) (c : ContextID) : Prop :=
  ∃ c', ReflTransGen t.WaitsFor c c' ∧ TransGen t.WaitsFor c' c'

theorem Wf.cycleFrom_iff (h : g.Wf) {c : ContextID} {i : VertexID}
    (hi : (Vertex.context c, i) ∈ g.vertexes) :
    Dfs.CycleFrom g.succ i ↔ DeadLockFrom g.table c := by
  constructor
  · rintro ⟨w, hr, hcyc⟩
    -- move the cycle to a context vertex `x` on it
    have hx : ∃ x c', (Vertex.context c', x) ∈ g.vertexes ∧
        ReflTransGen (Dfs.Edge g.succ) i x ∧ TransGen (Dfs.Edge g.succ) x x := by
      obtain ⟨b, hwb, hbw⟩ := TransGen.head'_iff.mp hcyc
      rcases h.edge_cases hwb with ⟨_, c', _, hw, -, -⟩ | ⟨_, c', _, -, hb, -⟩
      · exact ⟨w, c', hw, hr, hcyc⟩
      · exact ⟨b, c', hb, hr.tail hwb, TransGen.tail' hbw hwb⟩
    obtain ⟨x, c', hx, hr, hcyc⟩ := hx
    refine ⟨c', ?_, (h.walk hx hcyc).1 c' hx⟩
    rcases reflTransGen_iff_eq_or_transGen.mp hr with rfl | hr
    · rw [h.context_inj hx hi]
    · exact ((h.walk hi hr).1 c' hx).to_reflTransGen
  · rintro ⟨c', hr, hcyc⟩
    -- `c'` owns a key on its cycle, so it has a vertex
    obtain ⟨c₁, hw, -⟩ := TransGen.head'_iff.mp hcyc
    obtain ⟨j, -, -, hj, -, -, -⟩ := WaitsFor.edges h hw
    refine ⟨j, ?_, h.transGen_edges hcyc hj hj⟩
    rcases reflTransGen_iff_eq_or_transGen.mp hr with rfl | hr
    · rw [h.id_eq hi hj]
    · exact (h.transGen_edges hr hi hj).to_reflTransGen

/-- The vertices of the graph, a set closed under out-edges. -/
def vertexSet (g : GraphKeyLocks) : Finset VertexID := (g.graph.vertices.map Prod.fst).toFinset

theorem Wf.mem_vertexSet (h : g.Wf) {v : Vertex} {i : VertexID} (hv : (v, i) ∈ g.vertexes) :
    i ∈ g.vertexSet := by
  simp only [vertexSet, List.mem_toFinset, List.mem_map]
  exact ⟨(i, v), (h.vertices_iff i v).mpr hv, rfl⟩

theorem Wf.succ_mem_vertexSet (h : g.Wf) :
    ∀ u ∈ g.vertexSet, ∀ v ∈ g.succ u, v ∈ g.vertexSet := by
  intro u _ v hv
  rcases h.edge_cases hv with ⟨_, _, _, -, hv, -⟩ | ⟨_, _, _, -, hv, -⟩
  · exact h.mem_vertexSet hv
  · exact h.mem_vertexSet hv

theorem vertexSet_card_le : g.vertexSet.card ≤ g.graph.vertices.length :=
  (List.toFinset_card_le _).trans (by simp)

/-- The in-degree test of `detectDeadLock`: a context without in-edges owns
nothing. -/
theorem Wf.inEdges_eq_zero_iff (h : g.Wf) {c : ContextID} {i : VertexID}
    (hi : (Vertex.context c, i) ∈ g.vertexes) :
    (g.graph.inEdges i).length = 0 ↔ ¬ ∃ k s, g.table.own k c s := by
  simp only [List.length_eq_zero_iff, LockGraph.inEdges, List.filter_eq_nil_iff,
    decide_eq_true_eq]
  constructor
  · rintro hnone ⟨k, s, ki, ci, -, hci, he⟩
    exact hnone _ he (h.id_eq hci hi)
  · rintro hnone e he rfl
    obtain ⟨contract, key, c', ⟨hk, hc⟩ | ⟨-, hk⟩⟩ := h.joins e he
    · obtain rfl := h.context_inj hc hi
      exact hnone ⟨(contract, key), e.seq, e.source, e.target, hk, hc, he⟩
    · exact h.key_ne_context hk hi rfl

/-- **`detectDeadLock` is exact**: it answers `true` iff the context owns a key
and a cycle of waits is reachable from it. -/
theorem Wf.detectDeadLock_iff (h : g.Wf) (c : ContextID) :
    g.detectDeadLock c = true ↔ (∃ k s, g.table.own k c s) ∧ DeadLockFrom g.table c := by
  unfold detectDeadLock
  rcases hf : OrderedMap.find? (.context c) g.vertexes with _ | i
  · have hnone := OrderedMap.find?_eq_none_iff.mp hf
    simp only [hf, Bool.false_eq_true, false_iff, not_and]
    rintro ⟨k, s, ki, ci, -, hci, -⟩
    exact absurd rfl (hnone _ hci)
  · have hi := (OrderedMap.find?_eq_some_iff h.ascending).mp hf
    have hdfs := Dfs.backEdge_iff h.succ_mem_vertexSet (h.mem_vertexSet hi) vertexSet_card_le
    by_cases hown : ∃ k s, g.table.own k c s
    · have hdeg : ¬ (g.graph.inEdges i).length = 0 :=
        fun hz => (h.inEdges_eq_zero_iff hi).mp hz hown
      simp only [hf, hdeg, if_false]
      rw [← h.cycleFrom_iff hi]
      exact hdfs.trans (iff_and_self.mpr fun _ => hown)
    · simp only [hf, (h.inEdges_eq_zero_iff hi).mpr hown, if_true]
      simp [hown]

/-- Where the locks are stored does not matter. -/
theorem Wf.detectDeadLock_congr (h : g.Wf) {g' : GraphKeyLocks} (h' : g'.Wf)
    (htab : g.table = g'.table) (c : ContextID) : g.detectDeadLock c = g'.detectDeadLock c := by
  rw [Bool.eq_iff_iff, h.detectDeadLock_iff, h'.detectDeadLock_iff, htab]

/-! ### Reachable graphs -/

/-- `g'` stores the vertices and edges of `g` in another order. -/
structure Reordered (g g' : GraphKeyLocks) : Prop where
  vertexes : g'.vertexes = g.vertexes
  vertices : g'.graph.vertices.Perm g.graph.vertices
  edges : g'.graph.edges.Perm g.graph.edges
  nextVertex : g'.graph.nextVertex = g.graph.nextVertex

/-- The graphs that operations lead to, whatever order the graph stores its
vertices and edges in. -/
inductive Reachable : GraphKeyLocks → Prop
  | empty : Reachable {}
  | operate {g : GraphKeyLocks} (op : Operation) : Reachable g → Reachable (g.operate op).1
  | reorder {g g' : GraphKeyLocks} : Reachable g → Reordered g g' → Reachable g'

theorem Wf.reordered (h : g.Wf) {g' : GraphKeyLocks} (hr : Reordered g g') : g'.Wf where
  ascending := hr.vertexes ▸ h.ascending
  vertices_iff := by
    intro id v
    rw [hr.vertices.mem_iff, hr.vertexes]
    exact h.vertices_iff id v
  id_unique := hr.vertexes ▸ h.id_unique
  id_lt := by
    rw [hr.vertexes, hr.nextVertex]
    exact h.id_lt
  joins := by
    intro e he
    have hjoins := h.joins e (hr.edges.mem_iff.mp he)
    unfold Joins at hjoins ⊢
    rw [hr.vertexes]
    exact hjoins
  edges_nodup := hr.edges.nodup_iff.mpr h.edges_nodup

theorem Wf.operate (h : g.Wf) (op : Operation) : (g.operate op).1.Wf :=
  operate_induction (P := fun g _ => g.Wf) (h := [])
    (fun contract key c s h => h.acquireKeyLock contract key c s)
    (fun c s h => (h.releaseKeyLocks c s).1) h op

theorem Reachable.wf (h : Reachable g) : g.Wf := by
  induction h with
  | empty => exact .empty
  | operate op _ ih => exact ih.operate op
  | reorder _ hr ih => exact ih.reordered hr

/-- **`detectDeadLock` is exact** on every reachable graph, in whatever order its
vertices and edges are stored: it answers `true` iff the context owns a key and
a directed cycle of the graph is reachable from its vertex.  It leaves the graph
as it is. -/
theorem detectDeadLock_exact (h : Reachable g) (c : ContextID) :
    (g.detectDeadLock c = true ↔ (∃ contract key s, g.table.own (contract, key) c s) ∧
      ∃ vertex, (Vertex.context c, vertex) ∈ g.vertexes ∧ Dfs.CycleFrom g.succ vertex) ∧
    (g.operate (.detectDeadLock c)).1 = g := by
  refine ⟨?_, rfl⟩
  rw [h.wf.detectDeadLock_iff]
  constructor
  · rintro ⟨⟨k, s, hown⟩, hdead⟩
    obtain ⟨-, vertex, -, hvertex, -⟩ := id hown
    exact ⟨⟨k.1, k.2, s, hown⟩, vertex, hvertex, (h.wf.cycleFrom_iff hvertex).mpr hdead⟩
  · rintro ⟨⟨contract, key, s, hown⟩, vertex, hvertex, hcycle⟩
    exact ⟨⟨(contract, key), s, hown⟩, (h.wf.cycleFrom_iff hvertex).mp hcycle⟩

/-- Two contexts that wait for each other's key. -/
def embrace : List Operation :=
  [.acquireKeyLock "x" "k" 0 0, .acquireKeyLock "y" "l" 1 0, .acquireKeyLock "x" "k" 1 1,
    .acquireKeyLock "y" "l" 0 1]

theorem reachable_operateAll (ops : List Operation) : Reachable (operateAll ops).1 := by
  induction ops using List.reverseRecOn with
  | nil => exact .empty
  | append_singleton ops op ih =>
      rw [GraphKeyLocks.operateAll, List.foldl_append]
      exact ih.operate op

/-- The same graph with its edges the other way round. -/
def reverseEdges (g : GraphKeyLocks) : GraphKeyLocks :=
  { g with graph := { g.graph with edges := g.graph.edges.reverse } }

theorem detectDeadLock_exact_embrace :
    (operateAll embrace).1.reverseEdges.detectDeadLock 0 = true ∧
    ∃ vertex, (Vertex.context 0, vertex) ∈ (operateAll embrace).1.reverseEdges.vertexes ∧
      Dfs.CycleFrom (operateAll embrace).1.reverseEdges.succ vertex := by
  have hdead : (operateAll embrace).1.reverseEdges.detectDeadLock 0 = true := by decide
  have hreach : Reachable (operateAll embrace).1.reverseEdges :=
    (reachable_operateAll embrace).reorder ⟨rfl, .refl _, List.reverse_perm _, rfl⟩
  exact ⟨hdead, ((detectDeadLock_exact hreach 0).1.mp hdead).2⟩

/-- A context that owns a key and is not found deadlocked starts no infinite
chain of waits. -/
theorem Wf.acc_of_detectDeadLock_false (h : g.Wf) {c : ContextID}
    (hown : ∃ k s, g.table.own k c s) (hd : g.detectDeadLock c = false) :
    Acc (fun c' c => g.table.WaitsFor c c') c := by
  unfold detectDeadLock at hd
  obtain ⟨k, s, ki, i, hki, hi, he⟩ := hown
  have hdeg : ¬ (g.graph.inEdges i).length = 0 :=
    fun hz => (h.inEdges_eq_zero_iff hi).mp hz ⟨k, s, ki, i, hki, hi, he⟩
  simp only [(OrderedMap.find?_eq_some_iff h.ascending).mpr hi, hdeg, if_false] at hd
  have hground : Dfs.Grounded g.succ i := Dfs.grounded_of_backEdge_false
    h.succ_mem_vertexSet (h.mem_vertexSet hi) vertexSet_card_le hd
  -- a wait makes two steps in the graph, so descend along chains of edges
  have hchain := hground.transGen
  clear hd hdeg he hground hki
  induction hchain generalizing c with
  | intro i _ ih =>
      apply Acc.intro c
      intro c' hw
      obtain ⟨i', k', j, hi', hj, h₁, h₂⟩ := WaitsFor.edges h hw
      obtain rfl := h.id_eq hi hi'
      exact ih j (TransGen.head h₂ (TransGen.single h₁)) hj

end GraphKeyLocks

end BcosScheduler
