/-
BcosScheduler/Victims.lean

Whom the deadlock pass turns back.

The pass takes the first transaction, in the order of the map, that owns a key
and from which a cycle of waits is reachable.  That transaction need not lie on
the cycle: it may own a key nobody asks for and wait behind a deadlock of
others.  Exactly when such a transaction stands before the first participant of
a deadlock (`ParticipantFirst` fails), somebody outside is turned back.
-/
import BcosScheduler.Progress

namespace BcosScheduler

open Relation

variable {env : BlockEnv} {executors : Executors} {staticCall : Bool} {states₀ states : List Node}
  {ctx₀ ctx : SendContext} {m m' : Machine} {g : GraphKeyLocks} {i : ContextID}

/-! ### Participants -/

/-- The context waits, through a chain of owners, for a key it owns. -/
def Participates (g : GraphKeyLocks) (i : ContextID) : Prop := TransGen g.table.WaitsFor i i

/-- The context owns a key and waits behind a deadlock of others. -/
def WaitsBehind (g : GraphKeyLocks) (i : ContextID) : Prop :=
  (∃ k s, g.table.own k i s) ∧ (∃ j, TransGen g.table.WaitsFor i j ∧ Participates g j) ∧
    ¬ Participates g i

/-- Whoever owns a key and waits behind a deadlock stands after a participant of
one. -/
def ParticipantFirst (g : GraphKeyLocks) (states : List Node) : Prop :=
  ∀ before n after, states = before ++ n :: after → WaitsBehind g n.2.contextID →
    ∃ k ∈ before, Participates g k.2.contextID

/-- Somebody waits for a participant, so it owns a key. -/
theorem Participates.detectDeadLock (hwf : g.Wf) (h : Participates g i) :
    g.detectDeadLock i = true := by
  obtain ⟨j, -, k, s, s', -, hown⟩ := TransGen.tail'_iff.mp h
  exact (hwf.detectDeadLock_iff i).mpr ⟨⟨k, s', hown⟩, i, ReflTransGen.refl, h⟩

/-- What `detectDeadLock` finds. -/
theorem detectDeadLock_cases (hwf : g.Wf) (h : g.detectDeadLock i = true) :
    Participates g i ∨ WaitsBehind g i := by
  obtain ⟨hown, j, hreach, hcycle⟩ := (hwf.detectDeadLock_iff i).mp h
  by_cases hi : Participates g i
  · exact Or.inl hi
  · rcases reflTransGen_iff_eq_or_transGen.mp hreach with rfl | hreach
    · exact Or.inl hcycle
    · exact Or.inr ⟨hown, ⟨j, hreach, hcycle⟩, hi⟩

theorem WaitsBehind.detectDeadLock (hwf : g.Wf) (h : WaitsBehind g i) :
    g.detectDeadLock i = true := by
  obtain ⟨hown, ⟨j, hreach, hcycle⟩, -⟩ := h
  exact (hwf.detectDeadLock_iff i).mpr ⟨hown, j, hreach.to_reflTransGen, hcycle⟩

/-- The first transaction found participates iff a participant comes first. -/
theorem participates_iff_participantFirst (hwf : g.Wf) {before after : List Node} {n : Node}
    (hfound : g.detectDeadLock n.2.contextID = true)
    (hbefore : ∀ k ∈ before, g.detectDeadLock k.2.contextID = false) :
    Participates g n.2.contextID ↔ ParticipantFirst g (before ++ n :: after) := by
  constructor
  · intro hn before' k after' hsplit hbehind
    -- `k` is found as well, so it is not before `n`, and it is not `n`
    rcases List.append_eq_append_iff.mp hsplit with ⟨gap, rfl, hrest⟩ | ⟨gap, rfl, hrest⟩
    · rcases gap with _ | ⟨first, gap⟩
      · obtain ⟨rfl, -⟩ := List.cons.inj hrest
        exact absurd hn hbehind.2.2
      · obtain ⟨rfl, -⟩ := List.cons.inj hrest
        exact ⟨n, by simp, hn⟩
    · rcases gap with _ | ⟨first, gap⟩
      · obtain ⟨rfl, -⟩ := List.cons.inj hrest
        exact absurd hn hbehind.2.2
      · obtain ⟨rfl, -⟩ := List.cons.inj hrest
        have hnot := hbefore k (by simp)
        rw [hbehind.detectDeadLock hwf] at hnot
        cases hnot
  · intro hfirst
    rcases detectDeadLock_cases hwf hfound with hn | hbehind
    · exact hn
    · obtain ⟨k, hk, hpart⟩ := hfirst before n after rfl hbehind
      have hnot := hbefore k hk
      rw [hpart.detectDeadLock hwf] at hnot
      cases hnot

/-! ### The reverts of a run -/

/-- A transaction set to `REVERT_KEY_LOCK`, with the locks and the states at that
moment. -/
structure Revert where
  keyLocks : GraphKeyLocks
  states : List Node
  contextID : ContextID

/-- The transactions turned back in a step, read off the batches it completed. -/
def Machine.victimsOf (m m' : Machine) : List ContextID :=
  (m'.history.drop m.history.length).flatMap BatchLog.victims

def Machine.revertsOf (m m' : Machine) : List Revert :=
  (m.victimsOf m').map fun i => ⟨m.log.ctx.keyLocks, m.states, i⟩

/-- A run with everything it turned back. -/
inductive RevertRun (env : BlockEnv) (staticCall : Bool) (executors : Executors)
    (start : Machine) : Machine → List Revert → Prop
  | start : RevertRun env staticCall executors start start []
  | step {m m' : Machine} {reverts : List Revert} :
      RevertRun env staticCall executors start m reverts →
      Machine.Step env staticCall executors m m' →
      RevertRun env staticCall executors start m' (reverts ++ m.revertsOf m')

theorem RevertRun.steps {start : Machine} {reverts : List Revert}
    (h : RevertRun env staticCall executors start m reverts) :
    Machine.Steps env staticCall executors start m := by
  induction h with
  | start => exact ReflTransGen.refl
  | step _ hstep ih => exact ih.tail hstep

theorem victimsOf_of_history (h : m'.history = m.history) : m.victimsOf m' = [] := by
  simp [Machine.victimsOf, h]

/-- The pass after replies turns nobody back. -/
theorem runPass_keyLock_victims {states states' : List Node} {keyLocks keyLocks' : GraphKeyLocks}
    {victims : List ContextID}
    (h : runPass keyLockCallback states keyLocks = .next states' keyLocks' victims) :
    victims = [] := by
  obtain ⟨s, hpass, -, rfl⟩ := runPass_next_iff.mp h
  refine traverseExecutive_data (J := fun s => s.victims = []) ?_ rfl hpass
  intro s state hint s' state' hnone hcall
  rw [(keyLockCallback_keeps hcall).2.1]
  exact hnone

/-- `checkBatch` leaves the history, or adds the batch that it completes. -/
theorem checkBatch_history (staticCall : Bool) (m : Machine) :
    (m.checkBatch staticCall).history = m.history ∨
    m.log.status.allSended = true ∧ m.log.status.received = m.log.status.total ∧
      ∃ states keyLocks victims,
        endBatch m.log.status m.states m.log.ctx.keyLocks = .next states keyLocks victims ∧
        (m.checkBatch staticCall).history
          = m.history ++ [⟨m.log.dispatched, m.log.erased, victims⟩] := by
  unfold Machine.checkBatch
  split_ifs with hcomplete
  · rcases endBatch m.log.status m.states m.log.ctx.keyLocks with
      e | f | ⟨states, keyLocks, victims⟩
    · exact Or.inl rfl
    · exact Or.inl rfl
    · refine Or.inr ⟨hcomplete.1, hcomplete.2.1, states, keyLocks, victims, rfl, ?_⟩
      simp only [Machine.afterBatch, Machine.finish]
      split_ifs <;> rfl
  · exact Or.inl rfl

theorem Machine.Step.history (hstep : Machine.Step env staticCall executors m m') :
    ∃ new, m'.history = m.history ++ new := by
  have hcheck : ∀ k : Machine, ∃ new, (k.checkBatch staticCall).history = k.history ++ new := by
    intro k
    rcases checkBatch_history staticCall k with hsame | ⟨-, -, _, _, _, -, hnew⟩
    · exact ⟨[], by simp [hsame]⟩
    · exact ⟨_, hnew⟩
  cases hstep with
  | visit hphase htodo =>
      refine ⟨[], ?_⟩
      rw [List.append_nil]
      unfold Machine.visit
      split <;> rfl
  | allSended hphase htodo => exact ⟨[], (List.append_nil _).symm⟩
  | check hphase htodo hall => exact hcheck m
  | reply hphase hmem hnew hreply => exact hcheck _
  | @hash answer hphase hanswer =>
      refine ⟨[], ?_⟩
      rw [List.append_nil]
      cases answer <;> rfl

/-- Whom `checkBatch` turns back: the first transaction found, in a batch that
sent nothing. -/
theorem Mid.checkBatch_victims (hm : Mid env executors states ctx m) (hd : DistinctContexts states)
    (hstate : FrameState states ctx.keyLocks)
    (hi : i ∈ m.victimsOf (m.checkBatch staticCall)) :
    m.log.dispatched = [] ∧ m.log.ctx.keyLocks.Wf ∧ ∃ before n after,
      m.states = before ++ n :: after ∧ m.log.ctx.keyLocks.detectDeadLock n.2.contextID = true ∧
      (∀ k ∈ before, m.log.ctx.keyLocks.detectDeadLock k.2.contextID = false) ∧
      i = n.2.contextID := by
  rcases checkBatch_history staticCall m with
    hsame | ⟨hall, hreceived, states', keyLocks, victims, hend, hhistory⟩
  · rw [victimsOf_of_history hsame] at hi
    cases hi
  · rw [Machine.victimsOf, hhistory, List.drop_left, List.flatMap_singleton] at hi
    obtain ⟨log, c, hsend, hans, -, hstates, b, hlog⟩ := hm.complete hd hall hreceived
    have hreach := sendReach_of_sendAll hsend
    have hinv := hreach.frameInv hd hstate
    rcases (endBatch_next hend).2 with ⟨htotal, hpass⟩ | hpass
    · rw [hlog] at htotal
      have hnone : log.dispatched = [] :=
        (hreach.shape hd.keyed hd.nodup).dispatched_nil htotal
      have hlocks : m.log.ctx.keyLocks = log.ctx.keyLocks := by
        rw [hlog]
        rfl
      rw [hans.nil hnone, map_applyReplies_nil] at hstates
      refine ⟨by rw [hlog]; exact hnone, hlocks ▸ hinv.wf, ?_⟩
      rw [hstates, hlocks] at hpass ⊢
      rcases runPass_deadLock log.ctx.keyLocks (hinv.waiting_unmarked hnone) with
        ⟨-, heq⟩ | ⟨before, n, after, hsplit, hfound, hbefore, heq⟩
      · rw [heq] at hpass
        cases hpass
        cases hi
      · rw [heq] at hpass
        cases hpass
        exact ⟨before, n, after, hsplit, hfound, hbefore, List.mem_singleton.mp hi⟩
    · rw [runPass_keyLock_victims hpass] at hi
      cases hi

/-- A step turns back nobody but the first transaction found. -/
theorem victimsOf_step (hd : DistinctContexts states₀) (h₀ : FrameState states₀ ctx₀.keyLocks)
    (hkeeps : executors.KeepsFrame)
    (h : Machine.Steps env staticCall executors (Machine.startBatch states₀ ctx₀ []) m)
    (hstep : Machine.Step env staticCall executors m m') (hi : i ∈ m.victimsOf m') :
    m.log.ctx.keyLocks.Wf ∧ ∃ before n after, m.states = before ++ n :: after ∧
      m.log.ctx.keyLocks.detectDeadLock n.2.contextID = true ∧
      (∀ k ∈ before, m.log.ctx.keyLocks.detectDeadLock k.2.contextID = false) ∧
      i = n.2.contextID := by
  have hexp := Steps.explained hd h
  cases hstep with
  | @visit n rest hphase htodo =>
      have hhistory : (m.visit env n rest).history = m.history := by
        unfold Machine.visit
        split <;> rfl
      rw [victimsOf_of_history hhistory] at hi
      cases hi
  | allSended hphase htodo =>
      have hhistory : m.setAllSended.history = m.history := rfl
      rw [victimsOf_of_history hhistory] at hi
      cases hi
  | check hphase htodo hall =>
      obtain ⟨states, ctx, hreach, -, hm⟩ := hexp.batching hphase
      exact (hm.checkBatch_victims (hreach.distinct hd) (hreach.frameState hd h₀ hkeeps) hi).2
  | @reply d reply hphase hmem hnew hreply =>
      -- a message was sent, so the deadlock pass is not made
      obtain ⟨states, ctx, hreach, -, hm⟩ := hexp.batching hphase
      have hdist := hreach.distinct hd
      have hnone := ((hm.receive hdist hmem hnew hreply).checkBatch_victims hdist
        (hreach.frameState hd h₀ hkeeps) hi).1
      rw [show m.log.dispatched = [] from hnone] at hmem
      cases hmem
  | @hash answer hphase hanswer =>
      have hhistory : (m.hashDone env answer).history = m.history := by
        cases answer <;> rfl
      rw [victimsOf_of_history hhistory] at hi
      cases hi

/-- **Who is turned back participates in a deadlock iff a participant comes
first.**  In every run with executors that keep context and sequence number:
all transactions that `checkBatch` turns back lie on a cycle of waits if and
only if, each time it turns one back, whoever owns a key and waits behind a
deadlock of others stands in the map after a participant of one. -/
theorem reverted_participate_iff {executors : Executors} (hkeeps : executors.KeepsFrame)
    {env : ExecuteEnv} (hstart : env.startContextID = 0) (block : Block) {m : Machine}
    {reverts : List Revert}
    (h : RevertRun (env.blockEnv block) env.staticCall executors (dmtStart env block) m reverts) :
    (∀ r ∈ reverts, Participates r.keyLocks r.contextID) ↔
      ∀ r ∈ reverts, ParticipantFirst r.keyLocks r.states := by
  have hall : ∀ r ∈ reverts,
      (Participates r.keyLocks r.contextID ↔ ParticipantFirst r.keyLocks r.states) := by
    induction h with
    | start => simp
    | @step m m' reverts hrun hstep ih =>
        intro r hr
        rcases List.mem_append.mp hr with hr | hr
        · exact ih r hr
        · obtain ⟨i, hi, rfl⟩ := List.mem_map.mp hr
          obtain ⟨hwf, before, n, after, hsplit, hfound, hbefore, rfl⟩ :=
            victimsOf_step (distinct_blockStates env block) (frameState_blockStates hstart block)
              hkeeps hrun.steps hstep hi
          dsimp only
          rw [hsplit]
          exact participates_iff_participantFirst hwf hfound hbefore
  exact forall₂_congr hall

/-! ### Small blocks -/

/-- The reverts of a run are the victims of its batches. -/
theorem RevertRun.contextIDs {start : Machine} {reverts : List Revert} (hnil : start.history = [])
    (h : RevertRun env staticCall executors start m reverts) :
    reverts.map Revert.contextID = m.history.flatMap BatchLog.victims := by
  induction h with
  | start => simp [hnil]
  | @step m m' reverts _ hstep ih =>
      obtain ⟨new, hnew⟩ := hstep.history
      simp [ih, hnew, Machine.revertsOf, Machine.victimsOf, Function.comp_def]

theorem exists_revertRun {start : Machine}
    (h : Machine.Steps env staticCall executors start m) :
    ∃ reverts, RevertRun env staticCall executors start m reverts := by
  induction h with
  | refl => exact ⟨[], .start⟩
  | tail _ hstep ih =>
      obtain ⟨reverts, hrun⟩ := ih
      exact ⟨_, hrun.step hstep⟩

/-- Two calls that wait for each other: the fourth batch turns the second one
back. -/
theorem reverted_participate_two_calls :
    ∃ reverts, RevertRun (plainEnv.blockEnv (callsTo ["a", "b"])) false
        (.ofFun embracing plainRoot) (dmtStart plainEnv (callsTo ["a", "b"]))
        (plainRun (callsTo ["a", "b"]) embracing
          [.visit, .visit, .allSended, .reply 0, .reply 1, .visit, .visit, .allSended, .reply 0,
            .reply 1, .visit, .visit, .allSended, .check]) reverts ∧
      reverts.map Revert.contextID = [1] ∧
      ((∀ r ∈ reverts, Participates r.keyLocks r.contextID) ↔
        ∀ r ∈ reverts, ParticipantFirst r.keyLocks r.states) := by
  obtain ⟨reverts, hrun⟩ := exists_revertRun (plainRun_steps (callsTo ["a", "b"]) embracing
    [.visit, .visit, .allSended, .reply 0, .reply 1, .visit, .visit, .allSended, .reply 0,
      .reply 1, .visit, .visit, .allSended, .check])
  refine ⟨reverts, hrun, ?_, reverted_participate_iff embracing_keepsFrame rfl _ hrun⟩
  rw [hrun.contextIDs rfl]
  decide +kernel

/-- A context whose keys nobody asks for participates in no deadlock. -/
theorem not_participates_of_edges (hwf : g.Wf) {vertex : VertexID}
    (hvertex : (Vertex.context i, vertex) ∈ g.vertexes)
    (hedges : ∀ e ∈ g.graph.edges, e.target = vertex →
      ∀ e' ∈ g.graph.edges, e'.target ≠ e.source) : ¬ Participates g i := by
  intro hcycle
  obtain ⟨j, -, hwait⟩ := TransGen.tail'_iff.mp hcycle
  obtain ⟨u, k, v, -, hv, huk, hkv⟩ := GraphKeyLocks.WaitsFor.edges hwf hwait
  obtain ⟨s, huk⟩ := GraphKeyLocks.edge_succ_iff.mp huk
  obtain ⟨s', hkv⟩ := GraphKeyLocks.edge_succ_iff.mp hkv
  exact hedges _ hkv (hwf.id_eq hv hvertex) _ huk rfl

/-- Up to the fourth batch of three calls: `a` and `b` wait for each other, the
call to `0` owns a key of its own and waits for the key of `a`. -/
def behindDeadLock : List Machine.Move :=
  [.visit, .visit, .visit, .allSended, .reply 0, .reply 1, .reply 2,
    .visit, .visit, .visit, .allSended, .reply 0, .reply 1,
    .visit, .visit, .visit, .allSended, .reply 2,
    .visit, .visit, .visit, .allSended]

/-- The transaction that waits behind the deadlock is turned back. -/
theorem bystander_reverted :
    (Executors.ofFun embracing plainRoot).KeepsFrame ∧
    ∃ m reverts, RevertRun (plainEnv.blockEnv (callsTo ["0", "a", "b"])) false
        (.ofFun embracing plainRoot) (dmtStart plainEnv (callsTo ["0", "a", "b"])) m reverts ∧
      ∃ r ∈ reverts, r.contextID = 0 ∧ ¬ Participates r.keyLocks r.contextID := by
  refine ⟨embracing_keepsFrame, ?_⟩
  have hsteps := plainRun_steps (callsTo ["0", "a", "b"]) embracing behindDeadLock
  have hstep : Machine.Step (plainEnv.blockEnv (callsTo ["0", "a", "b"])) false
      (.ofFun embracing plainRoot) (plainRun (callsTo ["0", "a", "b"]) embracing behindDeadLock) _ :=
    .check (by decide +kernel) (by decide +kernel) (by decide +kernel)
  have hvictim : 0 ∈ (plainRun (callsTo ["0", "a", "b"]) embracing behindDeadLock).victimsOf
      ((plainRun (callsTo ["0", "a", "b"]) embracing behindDeadLock).checkBatch false) := by
    decide +kernel
  have hvertex : (Vertex.context 0, 1) ∈
      (plainRun (callsTo ["0", "a", "b"]) embracing behindDeadLock).log.ctx.keyLocks.vertexes := by
    decide +kernel
  have hedges : ∀ e ∈ (plainRun (callsTo ["0", "a", "b"]) embracing
        behindDeadLock).log.ctx.keyLocks.graph.edges, e.target = 1 →
      ∀ e' ∈ (plainRun (callsTo ["0", "a", "b"]) embracing
        behindDeadLock).log.ctx.keyLocks.graph.edges, e'.target ≠ e.source := by
    decide +kernel
  generalize plainRun (callsTo ["0", "a", "b"]) embracing behindDeadLock = m at *
  obtain ⟨hwf, -⟩ := victimsOf_step (distinct_blockStates _ _) (frameState_blockStates rfl _)
    embracing_keepsFrame hsteps hstep hvictim
  obtain ⟨reverts, hrun⟩ := exists_revertRun hsteps
  exact ⟨_, _, hrun.step hstep, _, List.mem_append_right _ (List.mem_map.mpr ⟨0, hvictim, rfl⟩),
    rfl, not_participates_of_edges hwf hvertex hedges⟩

end BcosScheduler
