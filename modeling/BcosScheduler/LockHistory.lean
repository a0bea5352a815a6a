/-
BcosScheduler/LockHistory.lean

`GraphKeyLocks` along any sequence of its operations.

Each operation is run for the graph it leaves and for the elementary events it
consists of: an acquire with its answer, or a release.  A
`batchAcquireKeyLock` that throws is an operation like the others, it leaves
the keys it took before and the request it failed with.  The graph is then
the abstract lock table that the events play (`Run`), so its edges can be
read off the history.
-/
import BcosScheduler.GraphKeyLocksSpec

namespace BcosScheduler

namespace GraphKeyLocks

/-- Acquires and releases of (contract, key) pairs. -/
abbrev LockEvent := LockTable.Event KeyLock ContextID Seq

/-- The public operations of `GraphKeyLocks`. -/
inductive Operation
  | acquireKeyLock (contract key : String) (contextID : ContextID) (seq : Seq)
  | batchAcquireKeyLock (contract : String) (keys : List String) (contextID : ContextID)
      (seq : Seq)
  | releaseKeyLocks (contextID : ContextID) (seq : Seq)
  | getKeyLocksNotHoldingByContext (contract : String) (excludeContextID : ContextID)
  | detectDeadLock (contextID : ContextID)
  deriving DecidableEq, Repr

/-- The loop of `batchAcquireKeyLock` with the graph it leaves, also when it
throws, and the acquires it made. -/
def batchAcquires (g : GraphKeyLocks) (contract : String) (keys : List String)
    (contextID : ContextID) (seq : Seq) : GraphKeyLocks × List LockEvent :=
  match keys with
  | [] => (g, [])
  | key :: rest =>
      let (g, acquired) := g.acquireKeyLock contract key contextID seq
      let event := .acquire (contract, key) contextID seq acquired
      if acquired then
        let (g, events) := g.batchAcquires contract rest contextID seq
        (g, event :: events)
      else (g, [event])

/-- One operation: the graph it leaves and what it did. -/
def operate (g : GraphKeyLocks) : Operation → GraphKeyLocks × List LockEvent
  | .acquireKeyLock contract key contextID seq =>
      let (g, acquired) := g.acquireKeyLock contract key contextID seq
      (g, [.acquire (contract, key) contextID seq acquired])
  | .batchAcquireKeyLock contract keys contextID seq =>
      g.batchAcquires contract keys contextID seq
  | .releaseKeyLocks contextID seq =>
      (g.releaseKeyLocks contextID seq, [.release contextID seq])
  -- these two only read the graph
  | .getKeyLocksNotHoldingByContext _ _ => (g, [])
  | .detectDeadLock _ => (g, [])

/-- A sequence of operations from the empty graph, with its history. -/
def operateAll (ops : List Operation) : GraphKeyLocks × List LockEvent :=
  ops.foldl (fun p op => ((p.1.operate op).1, p.2 ++ (p.1.operate op).2)) ({}, [])

/-! ### What the operations keep -/

section Keeps

variable {P : GraphKeyLocks → List LockEvent → Prop}

/-- What an acquire keeps, the loop of `batchAcquireKeyLock` keeps. -/
theorem batchAcquires_induction
    (hacquire : ∀ {g h} contract key c s, P g h → P (g.acquireKeyLock contract key c s).1
      (h ++ [.acquire (contract, key) c s (g.acquireKeyLock contract key c s).2]))
    (contract : String) (c : ContextID) (s : Seq) (keys : List String) :
    ∀ {g : GraphKeyLocks} {h : List LockEvent}, P g h →
      P (g.batchAcquires contract keys c s).1 (h ++ (g.batchAcquires contract keys c s).2) := by
  induction keys with
  | nil =>
      intro g h hP
      rw [GraphKeyLocks.batchAcquires, List.append_nil]
      exact hP
  | cons key rest ih =>
      intro g h hP
      have hacq := hacquire contract key c s hP
      rcases heq : g.acquireKeyLock contract key c s with ⟨g₁, _ | _⟩
      · rw [heq] at hacq
        simpa [GraphKeyLocks.batchAcquires, heq] using hacq
      · rw [heq] at hacq
        simpa [GraphKeyLocks.batchAcquires, heq] using ih hacq

/-- What an acquire and a release keep, every operation keeps. -/
theorem operate_induction
    (hacquire : ∀ {g h} contract key c s, P g h → P (g.acquireKeyLock contract key c s).1
      (h ++ [.acquire (contract, key) c s (g.acquireKeyLock contract key c s).2]))
    (hrelease : ∀ {g h} c s, P g h → P (g.releaseKeyLocks c s) (h ++ [.release c s]))
    {g : GraphKeyLocks} {h : List LockEvent} (hP : P g h) (op : Operation) :
    P (g.operate op).1 (h ++ (g.operate op).2) := by
  cases op with
  | acquireKeyLock contract key c s => exact hacquire contract key c s hP
  | batchAcquireKeyLock contract keys c s =>
      exact batchAcquires_induction hacquire contract c s keys hP
  | releaseKeyLocks c s => exact hrelease c s hP
  | getKeyLocksNotHoldingByContext contract c =>
      rw [GraphKeyLocks.operate, List.append_nil]
      exact hP
  | detectDeadLock c =>
      rw [GraphKeyLocks.operate, List.append_nil]
      exact hP

theorem operateAll_induction
    (hacquire : ∀ {g h} contract key c s, P g h → P (g.acquireKeyLock contract key c s).1
      (h ++ [.acquire (contract, key) c s (g.acquireKeyLock contract key c s).2]))
    (hrelease : ∀ {g h} c s, P g h → P (g.releaseKeyLocks c s) (h ++ [.release c s]))
    (hempty : P {} []) (ops : List Operation) :
    P (operateAll ops).1 (operateAll ops).2 := by
  induction ops using List.reverseRecOn with
  | nil => exact hempty
  | append_singleton ops op ih =>
      rw [GraphKeyLocks.operateAll, List.foldl_append]
      exact operate_induction hacquire hrelease ih op

end Keeps

/-! ### The thrown batch -/

/-- `batchAcquireKeyLock` throws iff its last acquire fails, and leaves what the
loop leaves. -/
theorem batchAcquireKeyLock_eq (contract : String) (contextID : ContextID) (seq : Seq)
    (keys : List String) : ∀ g : GraphKeyLocks,
      ((∃ e, g.batchAcquireKeyLock contract keys contextID seq = .error e) ↔
        ∃ key, .acquire (contract, key) contextID seq false ∈
          (g.batchAcquires contract keys contextID seq).2) ∧
      ∀ g', g.batchAcquireKeyLock contract keys contextID seq = .ok g' →
        g' = (g.batchAcquires contract keys contextID seq).1 := by
  induction keys with
  | nil =>
      intro g
      simp [batchAcquireKeyLock, batchAcquires]
  | cons key rest ih =>
      intro g
      rcases hacq : g.acquireKeyLock contract key contextID seq with ⟨g₁, _ | _⟩
      · simp [batchAcquireKeyLock, batchAcquires, hacq]
      · obtain ⟨hthrow, hok⟩ := ih g₁
        simp only [batchAcquireKeyLock, batchAcquires, hacq, if_true, List.mem_cons,
          LockTable.Event.acquire.injEq, Bool.false_eq_true, and_false, false_or]
        exact ⟨hthrow, hok⟩

/-! ### The history of the graph -/

/-- A graph and a history that say the same. -/
structure Run (g : GraphKeyLocks) (h : List LockEvent) : Prop where
  wf : g.Wf
  table : g.table = LockTable.playAll h
  exclusive : g.table.Exclusive
  noSelfWait : g.table.NoSelfWait

variable {g : GraphKeyLocks} {h : List LockEvent}

theorem Run.empty : Run {} [] where
  wf := .empty
  table := table_empty
  exclusive := table_empty ▸ LockTable.Exclusive.empty
  noSelfWait := table_empty ▸ LockTable.NoSelfWait.empty

theorem Run.acquireKeyLock (hrun : Run g h) (contract key : String) (c : ContextID) (s : Seq) :
    Run (g.acquireKeyLock contract key c s).1
      (h ++ [.acquire (contract, key) c s (g.acquireKeyLock contract key c s).2]) := by
  have htable := hrun.wf.table_acquireKeyLock contract key c s
  have hiff := hrun.wf.acquireKeyLock_iff contract key c s
  refine ⟨hrun.wf.acquireKeyLock contract key c s, ?_, ?_, ?_⟩
  · rw [htable, LockTable.playAll_concat, ← hrun.table]
    rcases hacq : (g.acquireKeyLock contract key c s).2 with _ | _
    · have hfree : ¬ g.table.Free (contract, key) c := fun hf => by
        rw [hiff.mpr hf] at hacq
        cases hacq
      exact LockTable.acquire_of_not_free hfree
    · exact LockTable.acquire_of_free (hiff.mp hacq)
  · rw [htable]
    exact hrun.exclusive.acquire _ _ _
  · rw [htable]
    exact hrun.noSelfWait.acquire hrun.exclusive _ _ _

theorem Run.releaseKeyLocks (hrun : Run g h) (c : ContextID) (s : Seq) :
    Run (g.releaseKeyLocks c s) (h ++ [.release c s]) := by
  obtain ⟨hwf, htable⟩ := hrun.wf.releaseKeyLocks c s
  refine ⟨hwf, ?_, ?_, ?_⟩
  · rw [htable, LockTable.playAll_concat, ← hrun.table]
    rfl
  · rw [htable]
    exact hrun.exclusive.release c s
  · rw [htable]
    exact hrun.noSelfWait.release c s

theorem Run.operateAll (ops : List Operation) : Run (operateAll ops).1 (operateAll ops).2 :=
  operateAll_induction (fun contract key c s hrun => hrun.acquireKeyLock contract key c s)
    (fun c s hrun => hrun.releaseKeyLocks c s) .empty ops

/-- **The lock graph is a re-entrant lock table.**  After any sequence of
operations an edge key → context labelled `s` is an acquire granted to frame
`s` and not released since; an edge context → key labelled `s` is an acquire
refused to frame `s`, since when the frame was not released and the context was
not granted the key.  No key has two owners, no context waits for a key it
owns, and an acquire succeeds iff no other context owns the key.  A
`batchAcquireKeyLock` throws iff one of its acquires is refused, and otherwise
leaves the graph it returns. -/
theorem graphKeyLocks_refines_history (ops : List Operation) :
    (∀ contract key c s, (operateAll ops).1.table.own (contract, key) c s ↔
      LockTable.Since (.acquire (contract, key) c s true) (fun e => e = .release c s)
        (operateAll ops).2) ∧
    (∀ contract key c s, (operateAll ops).1.table.req (contract, key) c s ↔
      LockTable.Since (.acquire (contract, key) c s false)
        (fun e => e = .release c s ∨ ∃ s', e = .acquire (contract, key) c s' true)
        (operateAll ops).2) ∧
    (operateAll ops).1.table.Exclusive ∧
    (∀ k c s s', (operateAll ops).1.table.own k c s → ¬ (operateAll ops).1.table.req k c s') ∧
    (∀ contract key c s, ((operateAll ops).1.acquireKeyLock contract key c s).2 = true ↔
      ∀ c' s', (operateAll ops).1.table.own (contract, key) c' s' → c' = c) ∧
    ∀ contract keys c s,
      ((∃ e, (operateAll ops).1.batchAcquireKeyLock contract keys c s = .error e) ↔
        ∃ key, .acquire (contract, key) c s false ∈
          ((operateAll ops).1.operate (.batchAcquireKeyLock contract keys c s)).2) ∧
      ∀ g', (operateAll ops).1.batchAcquireKeyLock contract keys c s = .ok g' →
        g' = ((operateAll ops).1.operate (.batchAcquireKeyLock contract keys c s)).1 := by
  have hrun := Run.operateAll ops
  refine ⟨fun contract key c s => ?_, fun contract key c s => ?_, hrun.exclusive,
    fun _ _ _ _ => @hrun.noSelfWait _ _ _ _,
    fun contract key c s => hrun.wf.acquireKeyLock_iff contract key c s,
    fun contract keys c s => batchAcquireKeyLock_eq contract c s keys _⟩
  · rw [hrun.table]
    exact LockTable.own_playAll_iff
  · rw [hrun.table]
    exact LockTable.req_playAll_iff

/-! ### The published list -/

/-- The published list comes out of a `std::set`. -/
theorem getKeyLocksNotHoldingByContext_ascending (g : GraphKeyLocks) (contract : String)
    (c : ContextID) : (g.getKeyLocksNotHoldingByContext contract c).Pairwise (· < ·) := by
  have hnil : OrderedMap.Ascending ([] : List (String × Unit)) := List.Pairwise.nil
  have h := hnil.foldl_emplace (fun key : String => key) (fun _ => ())
    (g.graph.edges.filterMap (g.foreignKey? contract c))
  exact List.pairwise_map.mpr h

/-- **The published list is what an acquire would refuse.**  After any sequence
of operations the list for a contract and a context is strictly ascending, and
has a key iff the context would not get it, for whichever frame it asks. -/
theorem published_keys_are_those_refused (ops : List Operation) (contract : String)
    (c : ContextID) :
    ((operateAll ops).1.getKeyLocksNotHoldingByContext contract c).Pairwise (· < ·) ∧
    ∀ key s, key ∈ (operateAll ops).1.getKeyLocksNotHoldingByContext contract c ↔
      ((operateAll ops).1.acquireKeyLock contract key c s).2 = false := by
  have hwf := (Run.operateAll ops).wf
  refine ⟨getKeyLocksNotHoldingByContext_ascending _ contract c, fun key s => ?_⟩
  rw [hwf.mem_getKeyLocksNotHoldingByContext, Bool.eq_false_iff, ne_eq,
    hwf.acquireKeyLock_iff contract key c s]
  -- the key is not free iff someone else owns it
  simp only [LockTable.Free, not_forall]
  constructor
  · rintro ⟨c', s', hown, hne⟩
    exact ⟨c', s', hown, hne⟩
  · rintro ⟨c', s', hown, hne⟩
    exact ⟨c', s', hown, hne⟩

end GraphKeyLocks

end BcosScheduler
