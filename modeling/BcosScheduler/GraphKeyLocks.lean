/-
BcosScheduler/GraphKeyLocks.lean

The key-lock graph (`GraphKeyLocks.h`, `GraphKeyLocks.cpp`) as the source
stores it: a directed multigraph whose vertices are contexts and
(contract, key) pairs, and an ordered map `m_vertexes` from these to vertex
descriptors.  An edge key → context labelled `seq` says that call frame `seq`
of the context owns the key; an edge context → key labelled `seq` says that
the frame waits for it.

Vertex descriptors are opaque in the source (addresses of graph nodes); here
they are numbers handed out in order and never used again.  The order in
which the graph stores its edges is the order of the list `edges`; it depends
on memory addresses in the source, and no result below depends on it.
-/
import BcosScheduler.Common
import BcosScheduler.Lib.Dfs
import BcosScheduler.Lib.OrderedMap
import Mathlib.Data.String.Basic
import Mathlib.Data.Prod.Lex
import Mathlib.Data.Sum.Order

namespace BcosScheduler

/-! ### Vertices -/

/-- `GraphKeyLocks::Vertex`, a variant of a context and a (contract, key)
pair. -/
inductive Vertex
  | context (contextID : ContextID)
  | keyLock (contract key : String)
  deriving DecidableEq, Repr

namespace Vertex

/-- The variant as an ordered sum: alternatives by index, then by value. -/
def toSum : Vertex → Lex (ContextID ⊕ (String ×ₗ String))
  | context c => toLex (Sum.inl c)
  | keyLock contract key => toLex (Sum.inr (toLex (contract, key)))

theorem toSum_injective : Function.Injective toSum := by
  rintro (c | ⟨contract, key⟩) (c' | ⟨contract', key'⟩) h
  · simpa [toSum] using h
  · simp [toSum] at h
  · simp [toSum] at h
  · simpa [toSum] using h

/-- `operator<` of the variant, the order of `m_vertexes`. -/
instance : LinearOrder Vertex := LinearOrder.lift' toSum toSum_injective

/-- `operator<(const Vertex&, const KeyLockView&)`. -/
def ltView (v : Vertex) (contract key : String) : Bool :=
  match v with
  | context _ => true
  | keyLock contract' key' => decide (toLex (contract', key') < toLex (contract, key))

/-- `Vertex::operator==(const KeyLockView&)`. -/
def eqView (v : Vertex) (contract key : String) : Bool :=
  match v with
  | context _ => false
  | keyLock contract' key' => contract' == contract && key' == key

end Vertex

/-! ### The graph -/

/-- `VertexID`, the vertex descriptor. -/
abbrev VertexID := Nat

/-- An edge with its `EdgeSeq` property. -/
structure LockEdge where
  source : VertexID
  target : VertexID
  seq : Seq
  deriving DecidableEq, Repr

/-- `m_graph`: vertices with their property, and edges in storage order. -/
structure LockGraph where
  vertices : List (VertexID × Vertex) := []
  edges : List LockEdge := []
  nextVertex : VertexID := 0
  deriving DecidableEq, Repr

namespace LockGraph

/-- The property of a vertex descriptor. -/
def vertexAt (g : LockGraph) (id : VertexID) : Option Vertex :=
  (g.vertices.find? fun p => p.1 = id).map Prod.snd

def addVertex (g : LockGraph) (v : Vertex) : LockGraph :=
  { g with vertices := (g.nextVertex, v) :: g.vertices, nextVertex := g.nextVertex + 1 }

def removeVertex (g : LockGraph) (id : VertexID) : LockGraph :=
  { g with vertices := g.vertices.filter fun p => p.1 ≠ id }

def outEdges (g : LockGraph) (id : VertexID) : List LockEdge :=
  g.edges.filter fun e => e.source = id

def inEdges (g : LockGraph) (id : VertexID) : List LockEdge :=
  g.edges.filter fun e => e.target = id

/-- `boost::edge_range`: all parallel edges from `source` to `target`. -/
def edgeRange (g : LockGraph) (source target : VertexID) : List LockEdge :=
  g.edges.filter fun e => e.source = source ∧ e.target = target

end LockGraph

/-! ### The lock table -/

/-- The members of `GraphKeyLocks`. -/
structure GraphKeyLocks where
  graph : LockGraph := {}
  vertexes : List (Vertex × VertexID) := []
  deriving DecidableEq, Repr

namespace GraphKeyLocks

/-- Enter a vertex that is not in `m_vertexes` yet. -/
def enterVertex (g : GraphKeyLocks) (v : Vertex) : GraphKeyLocks × VertexID :=
  ({ graph := g.graph.addVertex v
     vertexes := OrderedMap.emplace v g.graph.nextVertex g.vertexes }, g.graph.nextVertex)

/-- The vertex of a context, entered on first use. -/
def touchContext (g : GraphKeyLocks) (contextID : ContextID) : GraphKeyLocks × VertexID :=
  match OrderedMap.find? (.context contextID) g.vertexes with
  | some id => (g, id)
  | none => g.enterVertex (.context contextID)

/-- `m_vertexes.lower_bound` with a (contract, key) view. -/
def lowerBound (g : GraphKeyLocks) (contract key : String) : List (Vertex × VertexID) :=
  g.vertexes.dropWhile fun e => e.1.ltView contract key

/-- The vertex of a (contract, key) pair, entered on first use. -/
def touchKeyLock (g : GraphKeyLocks) (contract key : String) : GraphKeyLocks × VertexID :=
  match g.lowerBound contract key with
  | (v, id) :: _ =>
      if v.eqView contract key then (g, id) else g.enterVertex (.keyLock contract key)
  | [] => g.enterVertex (.keyLock contract key)

/-- Add an edge unless one with the same ends and label exists. -/
def addEdge (g : GraphKeyLocks) (source target : VertexID) (seq : Seq) : GraphKeyLocks :=
  if (g.graph.edgeRange source target).any fun e => e.seq = seq then g
  else { g with graph := { g.graph with edges := ⟨source, target, seq⟩ :: g.graph.edges } }

/-- `boost::remove_edge(u, v, m_graph)`: remove all parallel edges from
`source` to `target`. -/
def removeEdges (g : GraphKeyLocks) (source target : VertexID) : GraphKeyLocks :=
  { g with graph := { g.graph with
      edges := g.graph.edges.filter fun e => ¬ (e.source = source ∧ e.target = target) } }

/-- The edge ends at a context other than `contextID`. -/
def heldByOther (g : GraphKeyLocks) (contextID : ContextID) (e : LockEdge) : Bool :=
  match g.graph.vertexAt e.target with
  | some (.context c) => c ≠ contextID
  | _ => false

/-- Take a key for a call frame of a context.  If another context owns it, note
the request and return `false`; else drop all requests of the context for the
key and note the ownership. -/
def acquireKeyLock (g : GraphKeyLocks) (contract key : String) (contextID : ContextID)
    (seq : Seq) : GraphKeyLocks × Bool :=
  let (g, keyVertex) := g.touchKeyLock contract key
  let (g, contextVertex) := g.touchContext contextID
  if (g.graph.outEdges keyVertex).any (g.heldByOther contextID) then
    (g.addEdge contextVertex keyVertex seq, false)
  else
    let g := g.removeEdges contextVertex keyVertex
    (g.addEdge keyVertex contextVertex seq, true)

/-- Take a list of keys; a key owned by another context is an exception. -/
def batchAcquireKeyLock (g : GraphKeyLocks) (contract : String) (keys : List String)
    (contextID : ContextID) (seq : Seq) : Except Error GraphKeyLocks :=
  match keys with
  | [] => .ok g
  | key :: rest =>
      let (g, acquired) := g.acquireKeyLock contract key contextID seq
      if acquired then g.batchAcquireKeyLock contract rest contextID seq
      else .error (SchedulerError.UnexpectedKeyLockError.error
        ("Batch acquire lock failed, contract: " ++ contract ++ ", key: " ++ toHex key ++
          ", contextID: " ++ toString contextID ++ ", seq: " ++ toString seq))

/-- The key of `contract` that the edge says another context owns. -/
def foreignKey? (g : GraphKeyLocks) (contract : String) (excludeContextID : ContextID)
    (e : LockEdge) : Option String :=
  match g.graph.vertexAt e.source, g.graph.vertexAt e.target with
  | some (.keyLock contract' key), some (.context c) =>
      if c ≠ excludeContextID ∧ contract' = contract then some key else none
  | _, _ => none

/-- The keys of `contract` owned by contexts other than `excludeContextID`,
in ascending order. -/
def getKeyLocksNotHoldingByContext (g : GraphKeyLocks) (contract : String)
    (excludeContextID : ContextID) : List String :=
  let uniqueKeyLocks := (g.graph.edges.filterMap (g.foreignKey? contract excludeContextID)).foldl
    (fun set key => OrderedMap.emplace key () set) []
  uniqueKeyLocks.map Prod.fst

/-- All edges at a vertex, in and out, are labelled `seq`. -/
def allOfFrame (g : GraphKeyLocks) (vertex : VertexID) (seq : Seq) : Bool :=
  let clearedIn := (g.graph.inEdges vertex).all fun e => e.seq = seq
  let clearedOut := (g.graph.outEdges vertex).all fun e => e.seq = seq
  clearedIn && clearedOut

/-- Remove the edges labelled `seq` at a vertex, in both directions. -/
def removeFrame (g : GraphKeyLocks) (vertex : VertexID) (seq : Seq) : GraphKeyLocks :=
  { g with graph := { g.graph with edges := g.graph.edges.filter fun e =>
      ¬ ((e.target = vertex ∨ e.source = vertex) ∧ e.seq = seq) } }

/-- Remove the vertex of a context. -/
def removeContext (g : GraphKeyLocks) (contextID : ContextID) (vertex : VertexID) :
    GraphKeyLocks :=
  { graph := g.graph.removeVertex vertex
    vertexes := OrderedMap.erase (.context contextID) g.vertexes }

/-- Drop the edges labelled `seq` at the vertex of the context, in both
directions, and the vertex itself with its last edge. -/
def releaseKeyLocks (g : GraphKeyLocks) (contextID : ContextID) (seq : Seq) : GraphKeyLocks :=
  let (g, vertex) := g.touchContext contextID
  if g.allOfFrame vertex seq then (g.removeFrame vertex seq).removeContext contextID vertex
  else g.removeFrame vertex seq

/-- Whether a cycle is reachable from the context, which must own a key.  The
colour map starts empty, that is all white; a path visits each vertex at most
once, so the number of vertices bounds the depth. -/
def detectDeadLock (g : GraphKeyLocks) (contextID : ContextID) : Bool :=
  match OrderedMap.find? (.context contextID) g.vertexes with
  | none => false
  | some vertex =>
      if (g.graph.inEdges vertex).length = 0 then false
      else
        (Dfs.depthFirstVisit (fun u => (g.graph.outEdges u).map LockEdge.target)
          g.graph.vertices.length vertex Dfs.State.init).backEdge

end GraphKeyLocks

end BcosScheduler
