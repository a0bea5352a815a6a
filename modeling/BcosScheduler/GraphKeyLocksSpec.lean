/-
BcosScheduler/GraphKeyLocksSpec.lean

What the key-lock graph stores and what its operations do.

`Wf` is the representation invariant: `m_vertexes` and the vertices of the
graph name each other, and every edge joins a context and a key.  Under it
the graph is read as an abstract re-entrant lock table (`table`), and each
operation of the source is the operation of the abstract table:

    (g.acquireKeyLock contract key c s).1.table = g.table.acquire (contract, key) c s
    (g.releaseKeyLocks c s).table               = g.table.release c s

Everything above this module reasons about `table` and these equations and
does not look at vertex descriptors again.
-/
import BcosScheduler.GraphKeyLocks
import BcosScheduler.Lib.LockTable

namespace BcosScheduler

/-- `GraphKeyLocks::KeyLock`: a contract and a key of it. -/
abbrev KeyLock := String × String

namespace Vertex

theorem ltView_iff (v : Vertex) (contract key : String) :
    v.ltView contract key = true ↔ v < .keyLock contract key := by
  show _ ↔ v.toSum < (keyLock contract key).toSum
  rcases v with c | ⟨contract', key'⟩ <;> simp [ltView, toSum]

theorem eqView_iff (v : Vertex) (contract key : String) :
    v.eqView contract key = true ↔ v = .keyLock contract key := by
  rcases v with c | ⟨contract', key'⟩ <;> simp [eqView]

end Vertex

namespace GraphKeyLocks

/-- The edge joins a key and a context, in either direction. -/
def Joins (g : GraphKeyLocks) (e : LockEdge) : Prop :=
  ∃ contract key c,
    (Vertex.keyLock contract key, e.source) ∈ g.vertexes ∧
        (Vertex.context c, e.target) ∈ g.vertexes ∨
      (Vertex.context c, e.source) ∈ g.vertexes ∧
        (Vertex.keyLock contract key, e.target) ∈ g.vertexes

/-- Representation invariant of the lock graph. -/
structure Wf (g : GraphKeyLocks) : Prop where
  ascending : OrderedMap.Ascending g.vertexes
  vertices_iff : ∀ id v, (id, v) ∈ g.graph.vertices ↔ (v, id) ∈ g.vertexes
  id_unique : ∀ ⦃v v' id⦄, (v, id) ∈ g.vertexes → (v', id) ∈ g.vertexes → v = v'
  id_lt : ∀ ⦃v id⦄, (v, id) ∈ g.vertexes → id < g.graph.nextVertex
  joins : ∀ e ∈ g.graph.edges, g.Joins e
  edges_nodup : g.graph.edges.Nodup

/-- The graph as an abstract lock table. -/
def table (g : GraphKeyLocks) : LockTable KeyLock ContextID Seq where
  own k c s := ∃ i j, (Vertex.keyLock k.1 k.2, i) ∈ g.vertexes ∧
    (Vertex.context c, j) ∈ g.vertexes ∧ ⟨i, j, s⟩ ∈ g.graph.edges
  req k c s := ∃ i j, (Vertex.keyLock k.1 k.2, i) ∈ g.vertexes ∧
    (Vertex.context c, j) ∈ g.vertexes ∧ ⟨j, i, s⟩ ∈ g.graph.edges

theorem Wf.empty : Wf {} where
  ascending := List.Pairwise.nil
  vertices_iff := by simp
  id_unique := by simp
  id_lt := by simp
  joins := by simp
  edges_nodup := List.nodup_nil

@[simp] theorem table_empty : table {} = LockTable.empty := by
  ext <;> simp [table, LockTable.empty]

section

variable {g : GraphKeyLocks}

theorem Wf.vertexAt_eq_some_iff (h : g.Wf) {id : VertexID} {v : Vertex} :
    g.graph.vertexAt id = some v ↔ (v, id) ∈ g.vertexes := by
  unfold LockGraph.vertexAt
  constructor
  · intro hv
    obtain ⟨p, hp, rfl⟩ := Option.map_eq_some_iff.mp hv
    have hid : p.1 = id := by simpa using List.find?_some hp
    rw [← hid]
    exact (h.vertices_iff p.1 p.2).mp (List.mem_of_find?_eq_some hp)
  · intro hv
    rcases hf : g.graph.vertices.find? (fun p => p.1 = id) with _ | p
    · have hne := List.find?_eq_none.mp hf _ ((h.vertices_iff id v).mpr hv)
      simp at hne
    · have hid : p.1 = id := by simpa using List.find?_some hf
      have hp := (h.vertices_iff p.1 p.2).mp (List.mem_of_find?_eq_some hf)
      rw [hid] at hp
      rw [hf, Option.map_some, h.id_unique hp hv]

/-- The ends of an edge are vertices of `m_vertexes`, so older than the next
descriptor. -/
theorem Wf.edge_lt (h : g.Wf) {e : LockEdge} (he : e ∈ g.graph.edges) :
    e.source < g.graph.nextVertex ∧ e.target < g.graph.nextVertex := by
  obtain ⟨_, _, _, ⟨hs, ht⟩ | ⟨hs, ht⟩⟩ := h.joins e he
  · exact ⟨h.id_lt hs, h.id_lt ht⟩
  · exact ⟨h.id_lt hs, h.id_lt ht⟩

/-! ### Touching vertices -/

/-- The vertex of `v`, entered on first use: the common form of
`touchContext` and `touchKeyLock`. -/
def touch (g : GraphKeyLocks) (v : Vertex) : GraphKeyLocks × VertexID :=
  match OrderedMap.find? v g.vertexes with
  | some id => (g, id)
  | none => g.enterVertex v

theorem touchContext_eq (g : GraphKeyLocks) (c : ContextID) :
    g.touchContext c = g.touch (.context c) := rfl

/-- The mixed-type lookup of `touchKeyLock` finds the vertex again. -/
theorem Wf.touchKeyLock_eq (h : g.Wf) (contract key : String) :
    g.touchKeyLock contract key = g.touch (.keyLock contract key) := by
  have hview : (fun e : Vertex × VertexID => e.1.ltView contract key)
      = fun e => decide (e.1 < .keyLock contract key) := by
    funext e
    exact Bool.eq_iff_iff.mpr (by rw [Vertex.ltView_iff, decide_eq_true_iff])
  unfold touchKeyLock touch lowerBound
  rw [OrderedMap.find?_eq_lowerBound h.ascending, hview]
  -- both sides now look at the first entry not below the key
  generalize g.vertexes.dropWhile _ = bound
  rcases bound with _ | ⟨e, rest⟩
  · rfl
  · by_cases heq : e.1 = .keyLock contract key
    · simp [heq, (Vertex.eqView_iff _ contract key).mpr rfl]
    · have hview' : e.1.eqView contract key = false := by
        rw [Bool.eq_false_iff]
        exact fun hc => heq ((Vertex.eqView_iff _ _ _).mp hc)
      simp [heq, hview']

/-- What touching a vertex does to the graph. -/
structure Touched (g : GraphKeyLocks) (v : Vertex) (g' : GraphKeyLocks) (id : VertexID) :
    Prop where
  wf : g'.Wf
  mem : (v, id) ∈ g'.vertexes
  edges : g'.graph.edges = g.graph.edges
  mono : ∀ p ∈ g.vertexes, p ∈ g'.vertexes
  old : ∀ p ∈ g'.vertexes, p ∈ g.vertexes ∨ p.2 = g.graph.nextVertex

theorem Wf.touched (h : g.Wf) (v : Vertex) : Touched g v (g.touch v).1 (g.touch v).2 := by
  unfold touch
  rcases hf : OrderedMap.find? v g.vertexes with _ | id
  · -- a new vertex: the next descriptor is not in use
    have hnew := OrderedMap.find?_eq_none_iff.mp hf
    have hmem : ∀ p, p ∈ OrderedMap.emplace v g.graph.nextVertex g.vertexes ↔
        p = (v, g.graph.nextVertex) ∨ p ∈ g.vertexes :=
      fun p => OrderedMap.mem_emplace hnew
    refine ⟨⟨h.ascending.emplace _ _, fun id w => ?_, fun w w' id hw hw' => ?_,
      fun w id hw => ?_, fun e he => ?_, h.edges_nodup⟩, (hmem _).mpr (Or.inl rfl), rfl,
      fun p hp => (hmem p).mpr (Or.inr hp), fun p hp => ?_⟩
    · simp only [enterVertex, LockGraph.addVertex, List.mem_cons, hmem, h.vertices_iff,
        Prod.mk.injEq]
      exact or_congr_left and_comm
    · simp only [enterVertex, hmem, Prod.mk.injEq] at hw hw'
      rcases hw with ⟨rfl, rfl⟩ | hw <;> rcases hw' with ⟨rfl, hid⟩ | hw'
      · rfl
      · exact absurd (h.id_lt hw') (lt_irrefl _)
      · exact absurd (hid ▸ h.id_lt hw) (lt_irrefl _)
      · exact h.id_unique hw hw'
    · simp only [enterVertex, LockGraph.addVertex, hmem, Prod.mk.injEq] at hw ⊢
      rcases hw with ⟨-, rfl⟩ | hw
      · exact Nat.lt_succ_self _
      · exact (h.id_lt hw).trans (Nat.lt_succ_self _)
    · obtain ⟨contract, key, c, hj⟩ := h.joins e he
      simp only [Joins, enterVertex, hmem]
      exact ⟨contract, key, c, hj.imp (fun hj => ⟨Or.inr hj.1, Or.inr hj.2⟩)
        (fun hj => ⟨Or.inr hj.1, Or.inr hj.2⟩)⟩
    · rcases (hmem p).mp hp with rfl | hp
      · exact Or.inr rfl
      · exact Or.inl hp
  · exact ⟨h, (OrderedMap.find?_eq_some_iff h.ascending).mp hf, rfl, fun _ hp => hp,
      fun _ hp => Or.inl hp⟩

/-- Touching a vertex changes no lock. -/
theorem Touched.table_eq {v : Vertex} {g' : GraphKeyLocks} {id : VertexID} (h : g.Wf)
    (ht : Touched g v g' id) : g'.table = g.table := by
  -- an edge ends at old vertices only
  have back : ∀ {w : Vertex} {i : VertexID}, (w, i) ∈ g'.vertexes →
      i < g.graph.nextVertex → (w, i) ∈ g.vertexes := by
    intro w i hw hi
    rcases ht.old _ hw with hw | hw
    · exact hw
    · exact absurd hi (by rw [← hw]; exact lt_irrefl i)
  ext k c s <;> constructor
  · rintro ⟨i, j, hi, hj, he⟩
    rw [ht.edges] at he
    exact ⟨i, j, back hi (h.edge_lt he).1, back hj (h.edge_lt he).2, he⟩
  · rintro ⟨i, j, hi, hj, he⟩
    exact ⟨i, j, ht.mono _ hi, ht.mono _ hj, by rw [ht.edges]; exact he⟩
  · rintro ⟨i, j, hi, hj, he⟩
    rw [ht.edges] at he
    exact ⟨i, j, back hi (h.edge_lt he).2, back hj (h.edge_lt he).1, he⟩
  · rintro ⟨i, j, hi, hj, he⟩
    exact ⟨i, j, ht.mono _ hi, ht.mono _ hj, by rw [ht.edges]; exact he⟩

/-! ### Adding and removing edges -/

section Edges

variable {k : KeyLock} {c : ContextID} {kv cv : VertexID}

theorem Wf.id_eq (h : g.Wf) {v : Vertex} {i j : VertexID} (hi : (v, i) ∈ g.vertexes)
    (hj : (v, j) ∈ g.vertexes) : i = j :=
  h.ascending.value_unique hi hj

theorem Wf.keyLock_inj (h : g.Wf) {k k' : KeyLock} {i : VertexID}
    (hi : (Vertex.keyLock k.1 k.2, i) ∈ g.vertexes)
    (hi' : (Vertex.keyLock k'.1 k'.2, i) ∈ g.vertexes) : k = k' := by
  have := h.id_unique hi hi'
  simp only [Vertex.keyLock.injEq] at this
  exact Prod.ext this.1 this.2

theorem Wf.context_inj (h : g.Wf) {c c' : ContextID} {i : VertexID}
    (hi : (Vertex.context c, i) ∈ g.vertexes) (hi' : (Vertex.context c', i) ∈ g.vertexes) :
    c = c' := by
  simpa using h.id_unique hi hi'

theorem Wf.key_ne_context (h : g.Wf) {contract key : String} {i j : VertexID}
    (hi : (Vertex.keyLock contract key, i) ∈ g.vertexes)
    (hj : (Vertex.context c, j) ∈ g.vertexes) : i ≠ j := by
  rintro rfl
  simpa using h.id_unique hi hj

theorem mem_addEdge {source target : VertexID} {seq : Seq} {e : LockEdge} :
    e ∈ (g.addEdge source target seq).graph.edges ↔
      e ∈ g.graph.edges ∨ e = ⟨source, target, seq⟩ := by
  unfold addEdge
  split_ifs with hex
  · -- the edge is there already
    simp only [LockGraph.edgeRange, List.any_filter, List.any_eq_true, Bool.and_eq_true,
      decide_eq_true_eq] at hex
    obtain ⟨e', he', ⟨hs, ht⟩, hseq⟩ := hex
    have hmem : (⟨source, target, seq⟩ : LockEdge) ∈ g.graph.edges := by
      rw [← hs, ← ht, ← hseq]
      exact he'
    exact ⟨Or.inl, fun h => h.elim id fun h => h ▸ hmem⟩
  · simp only [List.mem_cons]
    exact or_comm

@[simp] theorem addEdge_vertexes {source target : VertexID} {seq : Seq} :
    (g.addEdge source target seq).vertexes = g.vertexes := by
  unfold addEdge
  split_ifs <;> rfl

theorem Wf.addEdge (h : g.Wf) {source target : VertexID} {seq : Seq}
    (hj : g.Joins ⟨source, target, seq⟩) : (g.addEdge source target seq).Wf := by
  unfold GraphKeyLocks.addEdge
  split_ifs with hex
  · exact h
  · refine ⟨h.ascending, h.vertices_iff, h.id_unique, h.id_lt, fun e he => ?_, ?_⟩
    · rcases List.mem_cons.mp he with rfl | he
      · exact hj
      · exact h.joins e he
    · refine List.nodup_cons.mpr ⟨fun hmem => hex ?_, h.edges_nodup⟩
      simp only [LockGraph.edgeRange, List.any_filter, List.any_eq_true, Bool.and_eq_true,
        decide_eq_true_eq]
      exact ⟨_, hmem, ⟨rfl, rfl⟩, rfl⟩

/-- An edge key → context is an ownership entry. -/
theorem Wf.table_addEdge_own (h : g.Wf) (hk : (Vertex.keyLock k.1 k.2, kv) ∈ g.vertexes)
    (hc : (Vertex.context c, cv) ∈ g.vertexes) (s : Seq) :
    (g.addEdge kv cv s).table =
      { own := fun k' c' s' => g.table.own k' c' s' ∨ (k' = k ∧ c' = c ∧ s' = s)
        req := g.table.req } := by
  ext k' c' s'
  · simp only [table, addEdge_vertexes, mem_addEdge]
    constructor
    · rintro ⟨i, j, hi, hj, he | he⟩
      · exact Or.inl ⟨i, j, hi, hj, he⟩
      · simp only [LockEdge.mk.injEq] at he
        obtain ⟨rfl, rfl, rfl⟩ := he
        exact Or.inr ⟨h.keyLock_inj hi hk, h.context_inj hj hc, rfl⟩
    · rintro (⟨i, j, hi, hj, he⟩ | ⟨rfl, rfl, rfl⟩)
      · exact ⟨i, j, hi, hj, Or.inl he⟩
      · exact ⟨kv, cv, hk, hc, Or.inr rfl⟩
  · simp only [table, addEdge_vertexes, mem_addEdge]
    constructor
    · rintro ⟨i, j, hi, hj, he | he⟩
      · exact ⟨i, j, hi, hj, he⟩
      · simp only [LockEdge.mk.injEq] at he
        exact absurd he.1.symm (h.key_ne_context hk hj)
    · rintro ⟨i, j, hi, hj, he⟩
      exact ⟨i, j, hi, hj, Or.inl he⟩

/-- An edge context → key is a request entry. -/
theorem Wf.table_addEdge_req (h : g.Wf) (hk : (Vertex.keyLock k.1 k.2, kv) ∈ g.vertexes)
    (hc : (Vertex.context c, cv) ∈ g.vertexes) (s : Seq) :
    (g.addEdge cv kv s).table = g.table.await k c s := by
  ext k' c' s'
  · simp only [table, LockTable.await, addEdge_vertexes, mem_addEdge]
    constructor
    · rintro ⟨i, j, hi, hj, he | he⟩
      · exact ⟨i, j, hi, hj, he⟩
      · simp only [LockEdge.mk.injEq] at he
        exact absurd he.1 (h.key_ne_context hi hc)
    · rintro ⟨i, j, hi, hj, he⟩
      exact ⟨i, j, hi, hj, Or.inl he⟩
  · simp only [table, LockTable.await, addEdge_vertexes, mem_addEdge]
    constructor
    · rintro ⟨i, j, hi, hj, he | he⟩
      · exact Or.inl ⟨i, j, hi, hj, he⟩
      · simp only [LockEdge.mk.injEq] at he
        obtain ⟨rfl, rfl, rfl⟩ := he
        exact Or.inr ⟨h.keyLock_inj hi hk, h.context_inj hj hc, rfl⟩
    · rintro (⟨i, j, hi, hj, he⟩ | ⟨rfl, rfl, rfl⟩)
      · exact ⟨i, j, hi, hj, Or.inl he⟩
      · exact ⟨kv, cv, hk, hc, Or.inr rfl⟩

/-- Keeping only some of the edges keeps the representation invariant. -/
theorem Wf.filterEdges (h : g.Wf) (p : LockEdge → Bool) :
    Wf { g with graph := { g.graph with edges := g.graph.edges.filter p } } :=
  ⟨h.ascending, h.vertices_iff, h.id_unique, h.id_lt,
    fun e he => h.joins e (List.mem_filter.mp he).1, h.edges_nodup.filter p⟩

theorem Wf.table_removeEdges (h : g.Wf) (hk : (Vertex.keyLock k.1 k.2, kv) ∈ g.vertexes)
    (hc : (Vertex.context c, cv) ∈ g.vertexes) :
    (g.removeEdges cv kv).table =
      { own := g.table.own
        req := fun k' c' s' => g.table.req k' c' s' ∧ ¬ (k' = k ∧ c' = c) } := by
  ext k' c' s'
  · simp only [table, GraphKeyLocks.removeEdges, List.mem_filter, decide_eq_true_eq]
    constructor
    · rintro ⟨i, j, hi, hj, he, -⟩
      exact ⟨i, j, hi, hj, he⟩
    · rintro ⟨i, j, hi, hj, he⟩
      exact ⟨i, j, hi, hj, he, fun hne => h.key_ne_context hi hc hne.1⟩
  · simp only [table, GraphKeyLocks.removeEdges, List.mem_filter, decide_eq_true_eq]
    constructor
    · rintro ⟨i, j, hi, hj, he, hne⟩
      refine ⟨⟨i, j, hi, hj, he⟩, ?_⟩
      rintro ⟨rfl, rfl⟩
      exact hne ⟨h.id_eq hj hc, h.id_eq hi hk⟩
    · rintro ⟨⟨i, j, hi, hj, he⟩, hne⟩
      refine ⟨i, j, hi, hj, he, ?_⟩
      rintro ⟨rfl, rfl⟩
      exact hne ⟨h.keyLock_inj hi hk, h.context_inj hj hc⟩

/-- The scan of the out-edges of a key decides whether another context owns it. -/
theorem Wf.any_heldByOther_iff (h : g.Wf) (hk : (Vertex.keyLock k.1 k.2, kv) ∈ g.vertexes)
    (c : ContextID) :
    (g.graph.outEdges kv).any (g.heldByOther c) = true ↔ ¬ g.table.Free k c := by
  simp only [LockGraph.outEdges, List.any_filter, List.any_eq_true, Bool.and_eq_true,
    decide_eq_true_eq, LockTable.Free, not_forall]
  constructor
  · rintro ⟨e, he, rfl, hother⟩
    unfold heldByOther at hother
    rcases hv : g.graph.vertexAt e.target with _ | c' | _
    · simp [hv] at hother
    · simp only [hv, decide_eq_true_eq] at hother
      exact ⟨c', e.seq, ⟨e.source, e.target, hk, h.vertexAt_eq_some_iff.mp hv, he⟩, hother⟩
    · simp [hv] at hother
  · rintro ⟨c', s, ⟨i, j, hi, hj, he⟩, hne⟩
    obtain rfl := h.id_eq hi hk
    refine ⟨_, he, rfl, ?_⟩
    simp [heldByOther, h.vertexAt_eq_some_iff.mpr hj, hne]

end Edges

/-! ### The operations -/

section Operations

/-- The two vertices an acquire works on, and the graph it works in. -/
theorem Wf.acquire_touched (h : g.Wf) (contract key : String) (c : ContextID) :
    ∃ (g' : GraphKeyLocks) (kv cv : VertexID), g'.Wf ∧ g'.table = g.table ∧
      (Vertex.keyLock contract key, kv) ∈ g'.vertexes ∧
      (Vertex.context c, cv) ∈ g'.vertexes ∧
      ∀ s, g.acquireKeyLock contract key c s =
        if (g'.graph.outEdges kv).any (g'.heldByOther c) then (g'.addEdge cv kv s, false)
        else ((g'.removeEdges cv kv).addEdge kv cv s, true) := by
  -- first the key is touched, then the context in the graph that gives
  have h₁ := h.touched (.keyLock contract key)
  have h₂ := h₁.wf.touched (.context c)
  refine ⟨_, _, _, h₂.wf, (h₂.table_eq h₁.wf).trans (h₁.table_eq h), h₂.mono _ h₁.mem,
    h₂.mem, fun s => ?_⟩
  simp only [acquireKeyLock, h.touchKeyLock_eq, touchContext_eq]

theorem Wf.acquireKeyLock (h : g.Wf) (contract key : String) (c : ContextID) (s : Seq) :
    (g.acquireKeyLock contract key c s).1.Wf := by
  obtain ⟨g', kv, cv, hwf, -, hk, hc, heq⟩ := h.acquire_touched contract key c
  rw [heq s]
  split_ifs
  · exact hwf.addEdge ⟨contract, key, c, Or.inr ⟨hc, hk⟩⟩
  · exact (hwf.filterEdges _).addEdge ⟨contract, key, c, Or.inl ⟨hk, hc⟩⟩

/-- `acquireKeyLock` is the abstract acquire. -/
theorem Wf.table_acquireKeyLock (h : g.Wf) (contract key : String) (c : ContextID) (s : Seq) :
    (g.acquireKeyLock contract key c s).1.table = g.table.acquire (contract, key) c s := by
  obtain ⟨g', kv, cv, hwf, htab, hk, hc, heq⟩ := h.acquire_touched contract key c
  have hany := hwf.any_heldByOther_iff (k := (contract, key)) hk c
  rw [heq s, ← htab]
  split_ifs with hheld
  · rw [LockTable.acquire_of_not_free (hany.mp hheld)]
    exact hwf.table_addEdge_req (k := (contract, key)) hk hc s
  · have hfree : g'.table.Free (contract, key) c := not_not.mp fun hn => hheld (hany.mpr hn)
    have hwf' : (g'.removeEdges cv kv).Wf := hwf.filterEdges _
    rw [LockTable.acquire_of_free hfree,
      hwf'.table_addEdge_own (k := (contract, key)) hk hc s,
      hwf.table_removeEdges (k := (contract, key)) hk hc]
    rfl

/-- `acquireKeyLock` succeeds iff no other context owns the key. -/
theorem Wf.acquireKeyLock_iff (h : g.Wf) (contract key : String) (c : ContextID) (s : Seq) :
    (g.acquireKeyLock contract key c s).2 = true ↔ g.table.Free (contract, key) c := by
  obtain ⟨g', kv, cv, hwf, htab, hk, hc, heq⟩ := h.acquire_touched contract key c
  have hany := hwf.any_heldByOther_iff (k := (contract, key)) hk c
  rw [heq s, ← htab]
  split_ifs with hheld
  · simpa using hany.mp hheld
  · simpa using not_not.mp fun hn => hheld (hany.mpr hn)

/-- `batchAcquireKeyLock` throws iff another context owns one of the keys; else
it grants them all. -/
theorem Wf.batchAcquireKeyLock_spec (contract : String) (c : ContextID) (s : Seq)
    (keys : List String) : ∀ {g : GraphKeyLocks}, g.Wf →
      ((∃ g', g.batchAcquireKeyLock contract keys c s = .ok g') ↔
        ∀ key ∈ keys, g.table.Free (contract, key) c) ∧
      ∀ g', g.batchAcquireKeyLock contract keys c s = .ok g' → g'.Wf ∧
        g'.table = g.table.grantAll {k | k.1 = contract ∧ k.2 ∈ keys} c s := by
  induction keys with
  | nil =>
      intro g h
      refine ⟨by simp [batchAcquireKeyLock], fun g' hg' => ?_⟩
      simp only [batchAcquireKeyLock, Except.ok.injEq] at hg'
      subst hg'
      have hempty : {k : KeyLock | k.1 = contract ∧ k.2 ∈ ([] : List String)} = ∅ := by
        ext
        simp
      exact ⟨h, by rw [hempty, LockTable.grantAll_empty]⟩
  | cons key rest ih =>
      intro g h
      have hwf := h.acquireKeyLock contract key c s
      have htab := h.table_acquireKeyLock contract key c s
      have hacq := h.acquireKeyLock_iff contract key c s
      have hset : {k : KeyLock | k.1 = contract ∧ k.2 ∈ key :: rest}
          = insert (contract, key) {k | k.1 = contract ∧ k.2 ∈ rest} := by
        ext ⟨contract', key'⟩
        simp only [Set.mem_ofPred_eq, List.mem_cons, Set.mem_insert_iff, Prod.mk.injEq]
        tauto
      -- the loop goes on behind a free key and throws at the first one that is not
      by_cases hfree : g.table.Free (contract, key) c
      · have hrun : g.batchAcquireKeyLock contract (key :: rest) c s
            = (g.acquireKeyLock contract key c s).1.batchAcquireKeyLock contract rest c s := by
          simp [batchAcquireKeyLock, hacq.mpr hfree]
        rw [LockTable.acquire_of_free hfree] at htab
        obtain ⟨hok, heq⟩ := ih hwf
        rw [hrun]
        refine ⟨?_, fun g' hg' => ⟨(heq g' hg').1, ?_⟩⟩
        · rw [hok, htab, List.forall_mem_cons]
          simp only [LockTable.free_grant_iff]
          exact ⟨fun hrest => ⟨hfree, hrest⟩, fun hall => hall.2⟩
        · rw [(heq g' hg').2, htab, LockTable.grant_grantAll, hset]
      · have hfalse : (g.acquireKeyLock contract key c s).2 = false := by
          rw [Bool.eq_false_iff]
          exact fun ht => hfree (hacq.mp ht)
        have hrun : ∀ g', g.batchAcquireKeyLock contract (key :: rest) c s ≠ .ok g' := by
          intro g'
          simp [batchAcquireKeyLock, hfalse]
        exact ⟨⟨fun ⟨g', hg'⟩ => absurd hg' (hrun g'),
          fun hall => absurd (hall key (by simp)) hfree⟩, fun g' hg' => absurd hg' (hrun g')⟩

/-- The scan picks an edge out of a key of the contract into another context. -/
theorem Wf.foreignKey?_eq_some_iff (h : g.Wf) {contract key : String} {c : ContextID}
    {e : LockEdge} : g.foreignKey? contract c e = some key ↔ ∃ c',
      (Vertex.keyLock contract key, e.source) ∈ g.vertexes ∧
        (Vertex.context c', e.target) ∈ g.vertexes ∧ c' ≠ c := by
  simp only [← h.vertexAt_eq_some_iff]
  unfold foreignKey?
  rcases g.graph.vertexAt e.source with _ | _ | ⟨contract', key'⟩
  · simp
  · simp
  · rcases g.graph.vertexAt e.target with _ | c' | _
    · simp
    · by_cases hc : c' ≠ c ∧ contract' = contract
      · obtain ⟨hc, rfl⟩ := hc
        simp [hc]
      · simp only [hc, if_false]
        refine ⟨fun hn => by simp at hn, ?_⟩
        rintro ⟨c'', hk, hc'', hne⟩
        simp only [Option.some.injEq, Vertex.keyLock.injEq, Vertex.context.injEq] at hk hc''
        exact absurd ⟨hc'' ▸ hne, hk.1⟩ hc
    · simp

/-- The published list has exactly the keys of the contract that other contexts
own. -/
theorem Wf.mem_getKeyLocksNotHoldingByContext (h : g.Wf) {contract key : String}
    {c : ContextID} : key ∈ g.getKeyLocksNotHoldingByContext contract c ↔
      ∃ c' s, g.table.own (contract, key) c' s ∧ c' ≠ c := by
  unfold getKeyLocksNotHoldingByContext
  rw [OrderedMap.mem_keys_foldl_emplace (fun key => key) fun _ => ()]
  simp only [List.map_id', List.mem_filterMap, List.map_nil, List.not_mem_nil, or_false,
    h.foreignKey?_eq_some_iff]
  constructor
  · rintro ⟨e, he, c', hs, ht, hne⟩
    exact ⟨c', e.seq, ⟨e.source, e.target, hs, ht, he⟩, hne⟩
  · rintro ⟨c', s, ⟨i, j, hi, hj, he⟩, hne⟩
    exact ⟨_, he, c', hi, hj, hne⟩

/-- Dropping the edges labelled `seq` at the vertex of a context releases the
frame. -/
theorem Wf.table_removeFrame (h : g.Wf) {c : ContextID} {cv : VertexID}
    (hc : (Vertex.context c, cv) ∈ g.vertexes) (s : Seq) :
    (g.removeFrame cv s).table = g.table.release c s := by
  ext k c' s'
  · simp only [table, removeFrame, LockTable.release, List.mem_filter, decide_eq_true_eq]
    constructor
    · rintro ⟨i, j, hi, hj, he, hne⟩
      refine ⟨⟨i, j, hi, hj, he⟩, ?_⟩
      rintro ⟨rfl, rfl⟩
      exact hne ⟨Or.inl (h.id_eq hj hc), rfl⟩
    · rintro ⟨⟨i, j, hi, hj, he⟩, hne⟩
      refine ⟨i, j, hi, hj, he, ?_⟩
      rintro ⟨rfl | rfl, rfl⟩
      · exact hne ⟨h.context_inj hj hc, rfl⟩
      · exact h.key_ne_context hi hc rfl
  · simp only [table, removeFrame, LockTable.release, List.mem_filter, decide_eq_true_eq]
    constructor
    · rintro ⟨i, j, hi, hj, he, hne⟩
      refine ⟨⟨i, j, hi, hj, he⟩, ?_⟩
      rintro ⟨rfl, rfl⟩
      exact hne ⟨Or.inr (h.id_eq hj hc), rfl⟩
    · rintro ⟨⟨i, j, hi, hj, he⟩, hne⟩
      refine ⟨i, j, hi, hj, he, ?_⟩
      rintro ⟨rfl | rfl, rfl⟩
      · exact h.key_ne_context hi hc rfl
      · exact hne ⟨h.context_inj hj hc, rfl⟩

/-- Removing a context vertex without edges keeps the invariant and all locks. -/
theorem Wf.removeContext (h : g.Wf) {c : ContextID} {cv : VertexID}
    (hc : (Vertex.context c, cv) ∈ g.vertexes)
    (hbare : ∀ e ∈ g.graph.edges, e.source ≠ cv ∧ e.target ≠ cv) :
    (g.removeContext c cv).Wf ∧ (g.removeContext c cv).table = g.table := by
  -- only the entry of the context goes, and no edge ends at its vertex
  have keep : ∀ {v : Vertex} {i : VertexID}, (v, i) ∈ g.vertexes → i ≠ cv →
      (v, i) ∈ OrderedMap.erase (.context c) g.vertexes := by
    intro v i hv hi
    refine OrderedMap.mem_erase.mpr ⟨hv, ?_⟩
    rintro rfl
    exact hi (h.id_eq hv hc)
  have drop : ∀ {v : Vertex} {i : VertexID},
      (v, i) ∈ OrderedMap.erase (.context c) g.vertexes → (v, i) ∈ g.vertexes :=
    fun hv => (OrderedMap.mem_erase.mp hv).1
  refine ⟨⟨h.ascending.erase _, fun id v => ?_, fun v v' id hv hv' => ?_, fun v id hv => ?_,
    fun e he => ?_, h.edges_nodup⟩, ?_⟩
  · simp only [GraphKeyLocks.removeContext, LockGraph.removeVertex, List.mem_filter,
      decide_eq_true_eq, h.vertices_iff]
    constructor
    · exact fun ⟨hv, hid⟩ => keep hv hid
    · intro hv
      refine ⟨drop hv, ?_⟩
      rintro rfl
      exact (OrderedMap.mem_erase.mp hv).2 (h.id_unique (drop hv) hc)
  · exact h.id_unique (drop hv) (drop hv')
  · exact h.id_lt (drop hv)
  · obtain ⟨hs, ht⟩ := hbare e he
    obtain ⟨contract, key, c', hj⟩ := h.joins e he
    exact ⟨contract, key, c', hj.imp (fun hj => ⟨keep hj.1 hs, keep hj.2 ht⟩)
      (fun hj => ⟨keep hj.1 hs, keep hj.2 ht⟩)⟩
  · ext k c' s' <;> constructor
    · rintro ⟨i, j, hi, hj, he⟩
      exact ⟨i, j, drop hi, drop hj, he⟩
    · rintro ⟨i, j, hi, hj, he⟩
      exact ⟨i, j, keep hi (hbare _ he).1, keep hj (hbare _ he).2, he⟩
    · rintro ⟨i, j, hi, hj, he⟩
      exact ⟨i, j, drop hi, drop hj, he⟩
    · rintro ⟨i, j, hi, hj, he⟩
      exact ⟨i, j, keep hi (hbare _ he).2, keep hj (hbare _ he).1, he⟩

theorem releaseKeyLocks_eq (g : GraphKeyLocks) (c : ContextID) (s : Seq) :
    g.releaseKeyLocks c s =
      if (g.touch (.context c)).1.allOfFrame (g.touch (.context c)).2 s then
        ((g.touch (.context c)).1.removeFrame (g.touch (.context c)).2 s).removeContext c
          (g.touch (.context c)).2
      else (g.touch (.context c)).1.removeFrame (g.touch (.context c)).2 s := rfl

/-- `releaseKeyLocks` is the abstract release. -/
theorem Wf.releaseKeyLocks (h : g.Wf) (c : ContextID) (s : Seq) :
    (g.releaseKeyLocks c s).Wf ∧ (g.releaseKeyLocks c s).table = g.table.release c s := by
  have ht := h.touched (.context c)
  have hframe := ht.wf.table_removeFrame ht.mem s
  have hwf : ((g.touch (.context c)).1.removeFrame (g.touch (.context c)).2 s).Wf :=
    ht.wf.filterEdges _
  rw [ht.table_eq h] at hframe
  rw [releaseKeyLocks_eq]
  rcases hall : (g.touch (.context c)).1.allOfFrame (g.touch (.context c)).2 s with _ | _
  · exact ⟨hwf, hframe⟩
  · -- all edges at the vertex are gone, and the vertex with them
    simp only [allOfFrame, Bool.and_eq_true, List.all_eq_true, LockGraph.inEdges,
      LockGraph.outEdges, List.mem_filter, decide_eq_true_eq, and_imp] at hall
    have hbare := hwf.removeContext ht.mem fun e he => by
      obtain ⟨he, hne⟩ := List.mem_filter.mp he
      simp only [decide_eq_true_eq] at hne
      exact ⟨fun hs => hne ⟨Or.inr hs, hall.2 e he hs⟩,
        fun ht' => hne ⟨Or.inl ht', hall.1 e he ht'⟩⟩
    exact ⟨hbare.1, hbare.2.trans hframe⟩

end Operations

end

end GraphKeyLocks

end BcosScheduler
