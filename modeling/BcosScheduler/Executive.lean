/-
BcosScheduler/Executive.lean

The executive states of a block (one per transaction) and
`traverseExecutive`, the loop that all passes over them share.

`m_executiveStates` is an ordered map from (contract, contextID) to states.
The traversal calls back for each state in key order; the hint of the
callback says what happens to the node.  A node answered `UPDATE` is taken out
and put back at the end under the key of its current message.

The traversal is written on the list of nodes still ahead (`todo`) and a
cursor with the nodes behind, so that a run of it can be stopped between two
visits; replies of executors arrive there.
-/
import BcosScheduler.Common
import BcosScheduler.Lib.OrderedMap
import Mathlib.Data.Prod.Lex
import Mathlib.Data.String.Basic

namespace BcosScheduler

/-- `ExecutiveState`.  The call stack has its top first; `message` is `none`
while it is moved out to an executor. -/
structure ExecutiveState where
  contextID : ContextID
  callStack : List Seq := []
  message : Option ExecutionMessage
  error : Option Error := none
  currentSeq : Seq := 0
  enableDAG : Bool := false
  skip : Bool := false
  deriving DecidableEq, Repr

/-- Keys of `m_executiveStates`. -/
abbrev StateKey := String ×ₗ ContextID

/-- A node of `m_executiveStates`. -/
abbrev Node := StateKey × ExecutiveState

def INT64_MAX : Int := 9223372036854775807

/-- `enum TraverseHint`. -/
inductive TraverseHint
  | PASS
  | DELETE
  | SKIP
  | UPDATE
  | END
  deriving DecidableEq, Repr

/-- What ends a pass, or the whole program, outside the normal flow: a failed
`assert(message)`, a dereferenced null message, `pop()` on an empty stack, or a
thrown exception. -/
inductive Fault
  | assertMessage
  | nullMessage
  | emptyPop
  | exception (error : Error)
  deriving DecidableEq, Repr

/-- The part of a traversal that lies behind: nodes that stay in the map,
the key up to which nodes are jumped over, and `updateNodes`, last one first. -/
structure Cursor where
  visited : List Node := []
  bound : Option StateKey := none
  updateNodes : List Node := []
  deriving DecidableEq

namespace Cursor

/-- The node lies before the position `upper_bound` jumped to. -/
def jumps (c : Cursor) (n : Node) : Bool :=
  match c.bound with
  | some key => n.1 ≤ key
  | none => false

/-- Leave a node where it is. -/
def keep (c : Cursor) (n : Node) : Cursor := { c with visited := c.visited ++ [n] }

/-- Go on from a visited node as its hint says. -/
def advance (c : Cursor) (hint : TraverseHint) (n : Node) (rest : List Node) :
    Cursor × List Node :=
  match hint with
  | .PASS => (c.keep n, rest)
  | .DELETE => (c, rest)
  | .SKIP => ({ c.keep n with bound := some (toLex ((ofLex n.1).1, INT64_MAX)) }, rest)
  | .UPDATE => ({ c with updateNodes := n :: c.updateNodes }, rest)
  | .END => ({ c with visited := c.visited ++ n :: rest }, [])

end Cursor

/-- The callback of a traversal over states, with the data it changes. -/
abbrev TraverseCallback (σ : Type*) :=
  σ → ExecutiveState → Except Fault (TraverseHint × σ × ExecutiveState)

/-- One turn of the loop of `traverseExecutive` at the node `n`. -/
def traverseStep {σ : Type*} (callback : TraverseCallback σ) (n : Node) (rest : List Node)
    (s : σ) (c : Cursor) : Except Fault (σ × Cursor × List Node) :=
  if c.jumps n then .ok (s, c.keep n, rest)
  else
    match callback s n.2 with
    | .error f => .error f
    | .ok (hint, s', state) =>
        let (c', rest') := c.advance hint (n.1, state) rest
        .ok (s', c', rest')

/-- The loop of `traverseExecutive` over the nodes ahead.  After `END` nothing
is ahead; after any other hint it is the rest of the nodes. -/
def traverseFrom {σ : Type*} (callback : TraverseCallback σ) :
    List Node → σ → Cursor → Except Fault (σ × Cursor)
  | [], s, c => .ok (s, c)
  | n :: rest, s, c =>
      match traverseStep callback n rest s c with
      | .error f => .error f
      | .ok (s', c', []) => .ok (s', c')
      | .ok (s', c', _ :: _) => traverseFrom callback rest s' c'

/-- The key of a node that is put back: its message says where, and only nodes with
a message are put back. -/
def ExecutiveState.updateKey (state : ExecutiveState) : StateKey :=
  toLex ((state.message.map ExecutionMessage.toAddr).getD "", state.contextID)

/-- Put the extracted nodes back.  `insert` drops a node whose key is taken. -/
def reinsert (updateNodes : List Node) (states : List Node) : List Node :=
  updateNodes.foldl (fun states n => OrderedMap.emplace n.2.updateKey n.2 states) states

/-- `traverseExecutive`. -/
def traverseExecutive {σ : Type*} (callback : TraverseCallback σ) (states : List Node)
    (s : σ) : Except Fault (List Node × σ) :=
  match traverseFrom callback states s {} with
  | .error f => .error f
  | .ok (s', c) =>
      -- of every extracted node `message->to()` is read
      if c.updateNodes.all fun n => n.2.message.isSome then
        .ok (reinsert c.updateNodes c.visited, s')
      else .error .nullMessage

end BcosScheduler
