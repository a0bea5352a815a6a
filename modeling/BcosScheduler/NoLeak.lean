/-
BcosScheduler/NoLeak.lean

No lock outlives its transaction.

At every moment of a run, the contexts that are labels of edges of the lock
graph are those of transactions that are still there, and the sequence numbers
are on their call stacks.  A transaction that was erased has no edge, and when
no transaction is left the graph has none.
-/
import BcosScheduler.FramePass

namespace BcosScheduler

namespace GraphKeyLocks

/-- The context an edge joins with a key, as owner or as requester. -/
def contextOf (g : GraphKeyLocks) (e : LockEdge) : Option ContextID :=
  match g.graph.vertexAt e.source, g.graph.vertexAt e.target with
  | some (.keyLock _ _), some (.context c) => some c
  | some (.context c), some (.keyLock _ _) => some c
  | _, _ => none

/-- Every edge is an entry of the table. -/
theorem Wf.contextOf_holds {g : GraphKeyLocks} (h : g.Wf) {e : LockEdge}
    (he : e ∈ g.graph.edges) : ∃ i, g.contextOf e = some i ∧ g.table.Holds i e.seq := by
  obtain ⟨contract, key, i, ⟨hs, ht⟩ | ⟨hs, ht⟩⟩ := h.joins e he
  · refine ⟨i, ?_, (contract, key), Or.inl ⟨e.source, e.target, hs, ht, he⟩⟩
    simp [contextOf, h.vertexAt_eq_some_iff.mpr hs, h.vertexAt_eq_some_iff.mpr ht]
  · refine ⟨i, ?_, (contract, key), Or.inr ⟨e.target, e.source, ht, hs, he⟩⟩
    simp [contextOf, h.vertexAt_eq_some_iff.mpr hs, h.vertexAt_eq_some_iff.mpr ht]

end GraphKeyLocks

/-- The machine has not ended with an error or a fault. -/
def Machine.Sound (m : Machine) : Prop :=
  m.phase = .batching ∨ m.phase = .hashing ∨ ∃ header, m.phase = .finished (.success header)

variable {env : BlockEnv} {executors : Executors} {staticCall : Bool} {states₀ : List Node}
  {ctx₀ : SendContext} {m : Machine}

/-- The locks in the middle of a batch. -/
theorem Mid.live {states : List Node} {ctx : SendContext} (hm : Mid env executors states ctx m)
    (hd : DistinctContexts states) (hstate : FrameState states ctx.keyLocks) :
    m.log.ctx.keyLocks.Wf ∧ LiveFrames m.states m.log.ctx.keyLocks.table := by
  obtain ⟨log, visited, b, hreach, hvisited, hlog, -⟩ := hm.path
  have hinv := hreach.frameInv hd hstate
  rw [hlog]
  -- replies written so far keep contexts and call stacks
  refine ⟨hinv.wf, hinv.live.mono fun n hn s hs _ => ?_⟩
  rw [Machine.states, hvisited]
  rcases List.mem_append.mp hn with hn | hn
  · have hframe := (applyReplies_frame m.replied n).2
    exact ⟨applyReplies m.replied n, List.mem_append_left _ (List.mem_map.mpr ⟨n, hn, rfl⟩),
      hframe.contextID, by rw [hframe.callStack]; exact hs⟩
  · exact ⟨n, List.mem_append_right _ hn, rfl, hs⟩

/-- A sound machine is in a batch, or all its states are gone. -/
theorem Explained.sound_cases (h : Explained env executors staticCall states₀ ctx₀ m)
    (hsound : m.Sound) :
    (∃ states ctx, Reaches env executors states₀ ctx₀ states ctx m.history ∧
      Mid env executors states ctx m) ∨ ∃ ctx, Emptied env executors states₀ ctx₀ ctx m := by
  unfold Explained at h
  rcases hsound with hphase | hphase | ⟨header, hphase⟩
  · rw [hphase] at h
    obtain ⟨states, ctx, hreach, -, hm⟩ := h
    exact Or.inl ⟨states, ctx, hreach, hm⟩
  · rw [hphase] at h
    exact Or.inr h.2.2
  · rw [hphase] at h
    obtain ⟨ctx, hm, -⟩ := h
    exact Or.inr ⟨ctx, hm⟩

theorem Explained.live (h : Explained env executors staticCall states₀ ctx₀ m)
    (hd : DistinctContexts states₀) (h₀ : FrameState states₀ ctx₀.keyLocks)
    (hkeeps : executors.KeepsFrame) (hsound : m.Sound) :
    m.log.ctx.keyLocks.Wf ∧ LiveFrames m.states m.log.ctx.keyLocks.table := by
  rcases h.sound_cases hsound with ⟨states, ctx, hreach, hm⟩ | ⟨ctx, hreach, -, hstates, hlog⟩
  · exact hm.live (hreach.distinct hd) (hreach.frameState hd h₀ hkeeps)
  · have hstate := hreach.frameState hd h₀ hkeeps
    rw [hstates, hlog]
    exact ⟨hstate.wf, hstate.live⟩

/-- A transaction that was erased is not there any more. -/
theorem Explained.erased_notMem (h : Explained env executors staticCall states₀ ctx₀ m)
    (hd : DistinctContexts states₀) (hsound : m.Sound) :
    ∀ state ∈ m.erasedStates, state.contextID ∉ contexts m.states := by
  rcases h.sound_cases hsound with ⟨states, ctx, hreach, hm⟩ | ⟨ctx, -, -, hstates, -⟩
  · obtain ⟨log, visited, b, hsend, hvisited, hlog, -⟩ := hm.path
    have hdist := hreach.distinct hd
    have hshape := hsend.shape hdist.keyed hdist.nodup
    -- present, erased in this batch and erased before are parts of one list without
    -- duplicates, the contexts of the block
    have hall := ((hshape.perm.append_right _).trans (hreach.contexts_perm hd)).nodup_iff.mpr hd.nodup
    have hstates : contexts m.states = contexts (visited ++ m.todo) := by
      rw [Machine.states, hvisited, contexts_append, contexts_map_applyReplies, contexts_append]
    rw [List.append_assoc] at hall
    intro state hmem hin
    rw [hstates] at hin
    refine (List.nodup_append.mp hall).2.2 _ hin _ ?_ rfl
    simp only [Machine.erasedStates, hlog, SendLog.seen, List.mem_append] at hmem
    rw [← List.map_append]
    exact List.mem_map.mpr ⟨state, by simpa using hmem.symm, rfl⟩
  · intro state _
    simp [hstates, contexts]

/-- A block starts without locks. -/
theorem frameState_blockStates {env : ExecuteEnv} (hstart : env.startContextID = 0)
    (block : Block) : FrameState (blockStates env block).1 (initialContext block).keyLocks where
  wf := .empty
  exclusive := by
    simp only [initialContext, GraphKeyLocks.table_empty]
    exact .empty
  idle := by
    intro n hn
    have hfresh := blockStates_fresh env block n hn
    obtain ⟨i, hctx, p, hget, hmsg, -⟩ := hfresh.frame
    obtain ⟨hid, htype⟩ := blockMessages_get hget
    refine ⟨⟨p.1, hmsg, hfresh.error, ?_, Or.inl ⟨hfresh.callStack, htype⟩⟩, hfresh.skip,
      released_of_type hmsg ?_⟩
    · rw [hid, hctx, hstart, add_zero]
    · rcases htype with htype | htype <;> simp [ExecutionMessage.returns, htype]
  live := by
    rintro i s ⟨k, hk⟩
    simp [initialContext, LockTable.empty] at hk

/-- **No leaked lock.**  In every run with executors that keep context and
sequence number, every edge of the lock graph belongs to a live frame of a
transaction that is still there; a transaction that was erased has no edge, and
without transactions there is no edge. -/
theorem keyLocks_of_live_frames {executors : Executors} (hkeeps : executors.KeepsFrame)
    {env : ExecuteEnv} (hstart : env.startContextID = 0) (block : Block) {m : Machine}
    (h : Machine.Steps (env.blockEnv block) env.staticCall executors (dmtStart env block) m)
    (hsound : m.Sound) :
    (∀ e ∈ m.log.ctx.keyLocks.graph.edges, ∃ n ∈ m.states,
      m.log.ctx.keyLocks.contextOf e = some n.2.contextID ∧ e.seq ∈ n.2.callStack) ∧
    (∀ state ∈ m.erasedStates, ∀ e ∈ m.log.ctx.keyLocks.graph.edges,
      m.log.ctx.keyLocks.contextOf e ≠ some state.contextID) ∧
    (m.states = [] → m.log.ctx.keyLocks.graph.edges = []) := by
  have hd := distinct_blockStates env block
  have hexp := Steps.explained hd h
  obtain ⟨hwf, hlive⟩ := hexp.live hd (frameState_blockStates hstart block) hkeeps hsound
  have hedge : ∀ e ∈ m.log.ctx.keyLocks.graph.edges, ∃ n ∈ m.states,
      m.log.ctx.keyLocks.contextOf e = some n.2.contextID ∧ e.seq ∈ n.2.callStack := by
    intro e he
    obtain ⟨i, hctx, hholds⟩ := hwf.contextOf_holds he
    obtain ⟨n, hn, rfl, hs⟩ := hlive i e.seq hholds
    exact ⟨n, hn, hctx, hs⟩
  refine ⟨hedge, fun state hstate e he heq => ?_, fun hnil => ?_⟩
  · obtain ⟨n, hn, hctx, -⟩ := hedge e he
    rw [hctx] at heq
    apply hexp.erased_notMem hd hsound state hstate
    rw [← Option.some.inj heq]
    exact List.mem_map.mpr ⟨n, hn, rfl⟩
  · apply List.eq_nil_iff_forall_not_mem.mpr
    intro e he
    obtain ⟨n, hn, -⟩ := hedge e he
    rw [hnil] at hn
    cases hn

/-- Executors that let a contract call `b` once, with the key `k` locked. -/
def calling (_ : List (List ExecutionMessage)) (message : ExecutionMessage) : Reply :=
  if message.type = .TXHASH then
    .message { message with type := .MESSAGE, fromAddr := message.toAddr, toAddr := "b"
                            keyLocks := ["k"] }
  else .message { message with type := .FINISHED, fromAddr := message.toAddr, keyLocks := [] }

theorem calling_keepsFrame : (Executors.ofFun calling plainRoot).KeepsFrame where
  contextID := by
    intro before message r h
    simp only [Executors.ofFun, calling] at h
    split_ifs at h <;> cases h <;> rfl
  seq := by
    intro before message r h
    simp only [Executors.ofFun, calling] at h
    split_ifs at h <;> cases h <;> rfl

/-- After the first batch the caller owns a key. -/
theorem keyLocks_of_live_frames_call :
    ∃ m : Machine, m.log.ctx.keyLocks.graph.edges ≠ [] ∧
      ∀ e ∈ m.log.ctx.keyLocks.graph.edges, ∃ n ∈ m.states,
        m.log.ctx.keyLocks.contextOf e = some n.2.contextID ∧ e.seq ∈ n.2.callStack := by
  have h := plainRun_steps (callsTo ["a"]) calling [.visit, .allSended, .reply 0]
  have hphase : (plainRun (callsTo ["a"]) calling [.visit, .allSended, .reply 0]).phase
      = .batching := by decide +kernel
  exact ⟨_, by decide +kernel,
    (keyLocks_of_live_frames calling_keepsFrame rfl _ h (Or.inl hphase)).1⟩

end BcosScheduler
