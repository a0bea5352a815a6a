/-
BcosScheduler/StartOrder.lean

Transactions on one contract start in block order.

A transaction that was never sent keeps the node `asyncExecute` made for it
(`Unstarted`): nothing replies to it, and the pass files it under the key it has.
In a batch it is sent, or ahead, or was jumped over or skipped, and then the rest
of its contract is jumped over too (`Place`).  Keys ascend, so when a
transaction is sent first, no earlier one on its contract is ahead; and if one
was sent in this batch, the contract is called already, unless it has no
contract yet.
-/
import BcosScheduler.Determinism
import BcosScheduler.FramePass

namespace BcosScheduler

variable {env : BlockEnv} {executors : Executors} {ctx : SendContext} {log log' : SendLog}
  {c c' : Cursor} {n : Node} {states states' todo rest rest' : List Node} {history : List BatchLog}
  {message : ExecutionMessage} {i : ContextID} {rs : List (ContextID × Reply)}

/-! ### Transactions that were not sent -/

/-- The node of a transaction of which no message was sent. -/
structure Unstarted (message : ExecutionMessage) (i : ContextID) (n : Node) : Prop where
  key : n.1 = toLex (message.toAddr, i)
  contextID : n.2.contextID = i
  requests : message.type = .MESSAGE ∨ message.type = .TXHASH
  error : n.2.error = none
  message : n.2.message = some message

/-- A request is no other message. -/
theorem Unstarted.others (h : Unstarted message i n) :
    ¬ message.returns ∧ message.type ≠ .KEY_LOCK ∧ message.type ≠ .REVERT_KEY_LOCK ∧
      message.type ≠ .SEND_BACK := by
  rcases h.requests with hreq | hreq <;> simp [ExecutionMessage.returns, hreq]

theorem Unstarted.mark (h : Unstarted message i n) (skip : Bool) :
    Unstarted message i (n.1, { n.2 with skip := skip }) :=
  ⟨h.key, h.contextID, h.requests, h.error, h.message⟩

/-- It is filed under the key it has. -/
theorem Unstarted.update (h : Unstarted message i n) (skip : Bool) :
    Unstarted message i (ExecutiveState.updateKey { n.2 with skip := skip },
      { n.2 with skip := skip }) := by
  refine ⟨?_, h.contextID, h.requests, h.error, h.message⟩
  simp [ExecutiveState.updateKey, h.message, h.contextID]

/-- The cursor jumps over everything filed under the contract. -/
def Cursor.Covers (c : Cursor) (contract : String) : Prop :=
  ∃ contract', c.bound = some (toLex (contract', INT64_MAX)) ∧ contract ≤ contract'

theorem Cursor.Covers.jumps {contract : String} (h : c.Covers contract)
    (hkey : n.1 = toLex (contract, i)) (hi : i ≤ INT64_MAX) : c.jumps n = true := by
  obtain ⟨contract', hbound, hle⟩ := h
  simp only [Cursor.jumps, hbound, hkey, decide_eq_true_eq]
  rcases hle.lt_or_eq with hlt | rfl
  · exact Prod.Lex.toLex_le_toLex.mpr (Or.inl hlt)
  · exact Prod.Lex.toLex_le_toLex.mpr (Or.inr ⟨rfl, hi⟩)

/-- Bounds are ends of contracts. -/
def Cursor.EndsContract (c : Cursor) : Prop :=
  ∀ b, c.bound = some b → ∃ contract, b = toLex (contract, INT64_MAX)

/-- Whoever is jumped over is so with the contract. -/
theorem Cursor.EndsContract.covers (h : c.EndsContract) {contract : String}
    (hkey : n.1 = toLex (contract, i)) (hjump : c.jumps n = true) : c.Covers contract := by
  rcases hbound : c.bound with _ | b
  · simp [Cursor.jumps, hbound] at hjump
  · obtain ⟨contract', rfl⟩ := h b hbound
    simp only [Cursor.jumps, hbound, hkey, decide_eq_true_eq] at hjump
    refine ⟨contract', hbound, ?_⟩
    rcases Prod.Lex.toLex_le_toLex.mp hjump with hlt | ⟨heq, -⟩
    · exact le_of_lt hlt
    · exact le_of_eq heq

/-- A skip moves the bound on, so it covers what was covered. -/
theorem Cursor.Covers.skip {contract : String} (h : c.Covers contract)
    (hjump : c.jumps n = false) (visited : List Node) :
    Cursor.Covers { c with visited := visited, bound := skipBound n } contract := by
  obtain ⟨contract', hbound, hle⟩ := h
  refine ⟨(ofLex n.1).1, rfl, hle.trans ?_⟩
  simp only [Cursor.jumps, hbound, decide_eq_false_iff_not, not_le] at hjump
  have hlex : toLex (contract', INT64_MAX) < toLex (ofLex n.1) := hjump
  rcases Prod.Lex.toLex_lt_toLex.mp hlex with hlt | ⟨heq, -⟩
  · exact le_of_lt hlt
  · exact le_of_eq heq

/-! ### One batch -/

/-- Where a transaction that was not sent before the batch stands: sent, ahead, or
behind with its contract jumped over. -/
inductive Place (message : ExecutionMessage) (i : ContextID) (log : SendLog) (c : Cursor)
    (todo : List Node) : Prop
  | sent : i ∈ log.sentTo → (message.toAddr ≠ "" → message.toAddr ∈ log.ctx.calledContract) →
      Place message i log c todo
  | ahead {n : Node} : n ∈ todo → Unstarted message i n → Place message i log c todo
  | passed {n : Node} : n ∈ c.visited → Unstarted message i n →
      todo = [] ∨ c.Covers message.toAddr → Place message i log c todo

/-- The places of the other transactions stay, if what was sent and what lies behind
only grows and the contracts jumped over stay covered. -/
theorem Place.carry (h : Place message i log c (n :: rest))
    (hsent : i ∈ log.sentTo → i ∈ log'.sentTo)
    (hcalled : log.ctx.calledContract ⊆ log'.ctx.calledContract)
    (hvisited : c.visited ⊆ c'.visited) (hcov : c.Covers message.toAddr → c'.Covers message.toAddr)
    (hn : Unstarted message i n → Place message i log' c' rest) : Place message i log' c' rest := by
  cases h with
  | sent hold hmem => exact .sent (hsent hold) fun hne => hcalled (hmem hne)
  | ahead hmem hk =>
      rcases List.mem_cons.mp hmem with rfl | hmem
      · exact hn hk
      · exact .ahead hmem hk
  | passed hmem hk hcovers =>
      exact .passed (hvisited hmem) hk (Or.inr (hcov (hcovers.resolve_left (List.cons_ne_nil _ _))))

/-- A turn keeps every place. -/
theorem Place.step (h : Place message i log c (n :: rest)) (hends : c.EndsContract)
    (hstep : traverseStep (sendCallback env) n rest log c = .ok (log', c', rest')) :
    Place message i log' c' rest' := by
  have hgrow : ∀ k : Node, c.visited ⊆ (c.keep k).visited := fun k =>
    List.subset_append_left _ _
  rcases sendStep_cases hstep with ⟨hjump, rfl, rfl, rfl⟩ | ⟨hjump, hint, state, hsends, heq⟩
  · refine h.carry id (List.Subset.refl _) (hgrow n) id fun hk => ?_
    exact .passed (List.mem_append_right _ (List.mem_singleton.mpr rfl)) hk
      (Or.inr (hends.covers hk.key hjump))
  · cases hsends with
    | error herr =>
        cases heq
        cases h with
        | sent hsent hcalled => exact .sent hsent hcalled
        | ahead hmem hk => exact .passed (List.mem_append_right _ hmem) hk (Or.inl rfl)
        | passed hmem hk _ => exact .passed (List.mem_append_left _ hmem) hk (Or.inl rfl)
    | skip _ _ _ _ =>
        cases heq
        refine h.carry id (List.Subset.refl _) (hgrow _) (fun hcov => hcov.skip hjump _)
          fun hk => ?_
        refine .passed (List.mem_append_right _ (List.mem_singleton.mpr rfl)) (hk.mark true)
          (Or.inr ⟨message.toAddr, ?_, le_refl _⟩)
        rw [hk.key]
        rfl
    | @wait message' _ hmsg _ htype _ =>
        cases heq
        refine h.carry id (List.Subset.refl _) (hgrow _) id fun hk => ?_
        obtain rfl := Option.some.inj (hk.message.symm.trans hmsg)
        exact absurd htype hk.others.2.1
    | @erase message' last _ hmsg _ htype _ =>
        cases heq
        refine h.carry id (List.Subset.refl _) (List.Subset.refl _) id fun hk => ?_
        obtain rfl := Option.some.inj (hk.message.symm.trans hmsg)
        exact absurd htype hk.others.1
    | @send message' sent callStack currentSeq keyLocks created _ hmsg _ hprep =>
        cases heq
        have hsent : i ∈ log.sentTo →
            i ∈ (log.sent keyLocks n.2.contextID sent created).sentTo := by
          intro hi
          simp only [SendLog.sentTo, SendLog.sent, List.map_append]
          exact List.mem_append_left _ hi
        refine h.carry hsent (List.subset_cons_self _ _) (hgrow _) id fun hk => ?_
        obtain rfl := Option.some.inj (hk.message.symm.trans hmsg)
        refine .sent ?_ fun hne => ?_
        · simp [SendLog.sentTo, SendLog.sent, hk.contextID]
        · -- a request keeps the target it has
          cases hprep with
          | push _ => simp [SendLog.sent, withTarget, hne]
          | pop htype _ => exact absurd htype hk.others.1
          | revertKeyLock htype => exact absurd htype hk.others.2.2.1
          | retry htype _ => exact absurd htype hk.others.2.1
          | sendBack htype => exact absurd htype hk.others.2.2.2

theorem Cursor.EndsContract.step {σ : Type*} {callback : TraverseCallback σ} {s s' : σ}
    (h : c.EndsContract) (hstep : traverseStep callback n rest s c = .ok (s', c', rest')) :
    c'.EndsContract := by
  rcases traverseStep_cases hstep with ⟨-, -, rfl, -⟩ | ⟨-, hint, state, -, heq⟩
  · exact h
  · cases hint with
    | SKIP =>
        cases heq
        exact fun b hb => ⟨_, (Option.some.inj hb).symm⟩
    | _ =>
        cases heq
        exact h

/-- The transactions a message was sent for. -/
def startedBy (batches : List (List Dispatch)) : List ContextID :=
  batches.flatten.map Dispatch.contextID

/-- Transactions on one contract start in block order: before a message is sent for
one of them, one was sent for every earlier one on its contract, in an earlier
batch, or, without a contract, at least earlier in the same batch. -/
def StartsInOrder (messages : List (ExecutionMessage × Bool)) (batches : List (List Dispatch)) :
    Prop :=
  ∀ (i j : Nat) p q, i < j → messages[i]? = some p → messages[j]? = some q →
    p.1.toAddr = q.1.toAddr →
    ∀ before batch after sent (d : Dispatch) later, batches = before ++ batch :: after →
      batch = sent ++ d :: later → d.contextID = j →
      (i : ContextID) ∈ startedBy before ∨
        p.1.toAddr = "" ∧ (i : ContextID) ∈ sent.map Dispatch.contextID

variable {messages : List (ExecutionMessage × Bool)} {batches : List (List Dispatch)}

/-- Then whoever has started has the earlier ones before. -/
theorem StartsInOrder.started (h : StartsInOrder messages batches) {i j : Nat}
    {p q : ExecutionMessage × Bool} (hlt : i < j) (hp : messages[i]? = some p)
    (hq : messages[j]? = some q) (hto : p.1.toAddr = q.1.toAddr)
    (hj : (j : ContextID) ∈ startedBy batches) : (i : ContextID) ∈ startedBy batches := by
  obtain ⟨d, hd, hctx⟩ := List.mem_map.mp hj
  obtain ⟨batch, hbatch, hmem⟩ := List.mem_flatten.mp hd
  obtain ⟨before, after, rfl⟩ := List.append_of_mem hbatch
  obtain ⟨sent, later, rfl⟩ := List.append_of_mem hmem
  simp only [startedBy, List.flatten_append, List.flatten_cons, List.map_append, List.mem_append]
  rcases h i j p q hlt hp hq hto before _ after sent d later rfl rfl hctx with hi | ⟨-, hi⟩
  · exact Or.inl hi
  · exact Or.inr (Or.inl (Or.inl hi))

/-- One more batch. -/
theorem StartsInOrder.concat (h : StartsInOrder messages batches) {new : List Dispatch}
    (hnew : ∀ (i j : Nat) p q, i < j → messages[i]? = some p → messages[j]? = some q →
      p.1.toAddr = q.1.toAddr → ∀ sent (d : Dispatch) later, new = sent ++ d :: later →
      d.contextID = j →
      (i : ContextID) ∈ startedBy batches ∨
        p.1.toAddr = "" ∧ (i : ContextID) ∈ sent.map Dispatch.contextID) :
    StartsInOrder messages (batches ++ [new]) := by
  intro i j p q hlt hp hq hto before batch after sent d later hsplit hbatch hctx
  rcases List.eq_nil_or_concat after with rfl | ⟨after, last, rfl⟩
  · obtain ⟨rfl, heq⟩ := List.append_inj' hsplit rfl
    obtain ⟨rfl, -⟩ := List.cons.inj heq
    exact hnew i j p q hlt hp hq hto sent d later hbatch hctx
  · have hsplit' : batches ++ [new] = (before ++ batch :: after) ++ [last] := by
      rw [hsplit]
      simp
    exact h i j p q hlt hp hq hto before batch after sent d later
      (List.append_inj' hsplit' rfl).1 hbatch hctx

/-- Invariant of a batch after the messages of earlier ones. -/
structure SendOrder (messages : List (ExecutionMessage × Bool)) (batches : List (List Dispatch))
    (log : SendLog) (c : Cursor) (todo : List Node) : Prop where
  ascending : OrderedMap.Ascending (c.visited ++ todo)
  ends : c.EndsContract
  place : ∀ (i : Nat) p, messages[i]? = some p → (i : ContextID) ∉ startedBy batches →
    Place p.1 i log c todo
  order : ∀ (i j : Nat) p q, i < j → messages[i]? = some p → messages[j]? = some q →
    p.1.toAddr = q.1.toAddr → ∀ sent (d : Dispatch) later, log.dispatched = sent ++ d :: later →
    d.contextID = j → (i : ContextID) ∈ startedBy batches ∨
      p.1.toAddr = "" ∧ (i : ContextID) ∈ sent.map Dispatch.contextID

/-- What the messages of one turn add to a batch. -/
theorem sendStep_sends
    (h : traverseStep (sendCallback env) n rest log c = .ok (log', c', rest')) :
    log'.dispatched = log.dispatched ∨
    c.jumps n = false ∧ ∃ message d, n.2.message = some message ∧ NotCalled log.ctx message ∧
      d.contextID = n.2.contextID ∧ log'.dispatched = log.dispatched ++ [d] := by
  rcases sendStep_cases h with ⟨-, rfl, -, -⟩ | ⟨hjump, hint, state, hsends, -⟩
  · exact Or.inl rfl
  · cases hsends with
    | send _ hmsg hnot _ => exact Or.inr ⟨hjump, _, _, hmsg, hnot, rfl, rfl⟩
    | _ => exact Or.inl rfl

/-- Who is sent first in a batch is the node `asyncExecute` made. -/
theorem Place.head (h : Place message i log c (n :: rest)) (hshape : SendShape states log c (n :: rest))
    (hnodup : (contexts states).Nodup) (hi : n.2.contextID = i) : Unstarted message i n := by
  have hall := hshape.nodup hnodup
  have hother := otherContexts_of_nodup hall
  have hbehind : ∀ k ∈ c.visited, k.2.contextID ≠ i := by
    intro k hk
    rw [← hi]
    exact hother k (List.mem_append_left _ hk)
  cases h with
  | sent hsent _ =>
      obtain ⟨k, hk, hctx⟩ := List.mem_map.mp (hshape.sentVisited i hsent)
      exact absurd hctx (hbehind k hk)
  | ahead hmem hk =>
      rcases List.mem_cons.mp hmem with rfl | hmem
      · exact hk
      · exact absurd (hk.contextID.trans hi.symm) (hother _ (List.mem_append_right _ hmem))
  | passed hmem hk _ => exact absurd hk.contextID (hbehind _ hmem)

/-- No earlier transaction on the contract of a first message is ahead or was jumped
over; and if it was sent in this batch, there is no contract yet. -/
theorem Place.earlier {request : ExecutionMessage} {i j : Nat}
    (h : Place message i log c (n :: rest)) (hasc : OrderedMap.Ascending (c.visited ++ n :: rest))
    (hn : Unstarted request j n) (hlt : i < j) (hj : (j : ContextID) ≤ INT64_MAX)
    (hto : message.toAddr = request.toAddr) (hjump : c.jumps n = false)
    (hnot : NotCalled log.ctx request) :
    message.toAddr = "" ∧ (i : ContextID) ∈ log.sentTo := by
  cases h with
  | sent hsent hcalled =>
      refine ⟨by_contra fun hne => hnot ?_, hsent⟩
      rw [← hto]
      exact ⟨hne, hcalled hne⟩
  | ahead hmem hk =>
      -- its key is below that of the next node
      have hkey : (toLex (message.toAddr, (i : ContextID)) : StateKey) < n.1 := by
        rw [hn.key, hto]
        exact Prod.Lex.toLex_lt_toLex.mpr (Or.inr ⟨rfl, Int.ofNat_lt.mpr hlt⟩)
      have htail := (List.pairwise_append.mp hasc).2.1
      rcases List.mem_cons.mp hmem with rfl | hmem
      · exact absurd hkey (by rw [hk.key]; exact lt_irrefl _)
      · have habove := (List.pairwise_cons.mp htail).1 _ hmem
        rw [hk.key] at habove
        exact absurd hkey (lt_asymm habove)
  | passed _ _ hcov =>
      have hcovers := hcov.resolve_left (List.cons_ne_nil _ _)
      rw [hto] at hcovers
      rw [hcovers.jumps hn.key hj] at hjump
      cases hjump

theorem SendOrder.step (h : SendOrder messages batches log c (n :: rest))
    (hstarts : StartsInOrder messages batches)
    (hsize : (messages.length : Int) ≤ INT64_MAX)
    (hshape : SendShape states log c (n :: rest)) (hnodup : (contexts states).Nodup)
    (hstep : traverseStep (sendCallback env) n rest log c = .ok (log', c', rest')) :
    SendOrder messages batches log' c' rest' := by
  refine ⟨h.ascending.of_keys (traverseStep_keys hstep), h.ends.step hstep,
    fun i p hp hi => (h.place i p hp hi).step h.ends hstep, ?_⟩
  intro i j p q hlt hp hq hto sent d later hsplit hctx
  rcases sendStep_sends hstep with hsame | ⟨hjump, message, new, hmsg, hnot, hnew, hdisp⟩
  · rw [hsame] at hsplit
    exact h.order i j p q hlt hp hq hto sent d later hsplit hctx
  · rw [hdisp] at hsplit
    rcases List.eq_nil_or_concat later with rfl | ⟨later, last, rfl⟩
    · obtain ⟨rfl, heq⟩ := List.append_inj' hsplit rfl
      obtain rfl := (List.cons.inj heq).1
      -- the message of the turn
      by_cases hi : (i : ContextID) ∈ startedBy batches
      · exact Or.inl hi
      by_cases hj : (j : ContextID) ∈ startedBy batches
      · exact absurd (hstarts.started hlt hp hq hto hj) hi
      · have hn := (h.place j q hq hj).head hshape hnodup (hnew.symm.trans hctx)
        obtain rfl := Option.some.inj (hmsg.symm.trans hn.message)
        have hjmax : (j : ContextID) ≤ INT64_MAX := by
          have hlen : j < messages.length := (List.getElem?_eq_some_iff.mp hq).1
          exact (Int.ofNat_lt.mpr hlen).le.trans hsize
        exact Or.inr ((h.place i p hp hi).earlier h.ascending hn hlt hjmax hto hjump hnot)
    · have hsplit' : log.dispatched ++ [new] = (sent ++ d :: later) ++ [last] := by
        rw [hsplit]
        simp
      exact h.order i j p q hlt hp hq hto sent d later (List.append_inj' hsplit' rfl).1 hctx

/-! ### Rounds -/

/-- The messages of completed batches. -/
def dispatchedIn (history : List BatchLog) : List (List Dispatch) :=
  history.map BatchLog.dispatched

/-- Invariant of the states with which a batch starts. -/
structure StartState (messages : List (ExecutionMessage × Bool)) (batches : List (List Dispatch))
    (states : List Node) : Prop where
  ascending : OrderedMap.Ascending states
  unstarted : ∀ (i : Nat) p, messages[i]? = some p → (i : ContextID) ∉ startedBy batches →
    ∃ n ∈ states, Unstarted p.1 i n

theorem StartState.sendOrder (h : StartState messages batches states)
    (ctx : SendContext) : SendOrder messages batches { ctx := ctx } {} states where
  ascending := h.ascending
  ends := by simp [Cursor.EndsContract]
  place := by
    intro i p hp hi
    obtain ⟨n, hn, hun⟩ := h.unstarted i p hp hi
    exact .ahead hn hun
  order := by simp

theorem SendReach.sendOrder (h : SendReach env states ctx log c todo)
    (hd : DistinctContexts states) (hstate : StartState messages batches states)
    (hstarts : StartsInOrder messages batches) (hsize : (messages.length : Int) ≤ INT64_MAX) :
    SendOrder messages batches log c todo := by
  induction h with
  | start => exact hstate.sendOrder _
  | step hreach hstep ih =>
      exact ih.step hstarts hsize (hreach.shape hd.keyed hd.nodup) hd.nodup hstep

/-- The pass after replies keeps the nodes of transactions that were not sent. -/
theorem Unstarted.pass {nodes : List Node} {keyLocks keyLocks' : GraphKeyLocks}
    {victims : List ContextID} (h : Unstarted message i n) (hn : n ∈ nodes)
    (hd : DistinctContexts nodes)
    (hpass : runPass keyLockCallback nodes keyLocks = .next states' keyLocks' victims) :
    ∃ n' ∈ states', Unstarted message i n' := by
  obtain ⟨s, htraverse, -⟩ := runPass_next_iff.mp hpass
  have hkept := traverseExecutive_nodes
    (P := fun k => k.2.contextID = i → Unstarted message i k) ?_ ?_ htraverse
  · have hperm := (runPass_contexts keyLockCallback_contextID hd.keyed hd.nodup hpass).1
    have hmem : i ∈ contexts states' := by
      rw [hperm.mem_iff, ← h.contextID]
      exact List.mem_map.mpr ⟨n, hn, rfl⟩
    obtain ⟨k, hk, hctx⟩ := List.mem_map.mp hmem
    exact ⟨k, hk, hkept k hk hctx⟩
  · intro s k hint s' state hk hcall
    obtain ⟨⟨skip, rfl⟩, -⟩ := keyLockCallback_keeps hcall
    exact ⟨fun hctx => (hk hctx).mark skip, fun _ hctx => (hk hctx).update skip⟩
  · -- the node is the only one of its context
    intro k hk hctx
    rw [eq_of_contextID hd.nodup hn hk (hctx.trans h.contextID.symm)]
    exact h

/-- A round keeps the invariant. -/
theorem StartState.round (hd : DistinctContexts states)
    (horder : SendOrder messages batches log c [])
    (hsend : sendAll env states ctx = .ok (log, c)) (hans : Answers executors history log rs)
    {keyLocks : GraphKeyLocks} {victims : List ContextID}
    (hend : roundEnd log c rs = .next states' keyLocks victims) :
    StartState messages (batches ++ [log.dispatched]) states' := by
  have hreach := sendReach_of_sendAll hsend
  have hshape := hreach.shape hd.keyed hd.nodup
  have hreplied := hshape.replied hd.nodup rs
  obtain ⟨herr, hpass⟩ := endBatch_next hend
  refine ⟨?_, fun i p hp hi => ?_⟩
  · have hvisited := horder.ascending
    rw [List.append_nil] at hvisited
    have hkeys : ((c.visited.map (applyReplies rs)).map Prod.fst) = c.visited.map Prod.fst := by
      rw [List.map_map]
      exact List.map_congr_left fun k _ => (applyReplies_frame rs k).1
    have hasc : OrderedMap.Ascending (c.visited.map (applyReplies rs)) :=
      hvisited.of_keys (by rw [hkeys])
    rcases hpass with ⟨-, hpass⟩ | hpass
    · exact runPass_ascending hasc hpass
    · exact runPass_ascending hasc hpass
  · simp only [startedBy, List.flatten_append, List.flatten_cons, List.flatten_nil,
      List.append_nil, List.map_append, List.mem_append, not_or] at hi
    obtain ⟨hold, hnew⟩ := hi
    cases horder.place i p hp hold with
    | sent hsent _ => exact absurd hsent hnew
    | ahead hmem _ => cases hmem
    | @passed n hmem hun _ =>
        -- nothing was sent to it, so there is no reply
        have hsame : applyReplies rs n = n := by
          apply applyReplies_of_notMem
          rw [hans.perm.mem_iff, hun.contextID]
          exact hnew
        have hmem' : n ∈ c.visited.map (applyReplies rs) := List.mem_map.mpr ⟨n, hmem, hsame⟩
        rcases hpass with ⟨htotal, -⟩ | hpass
        · -- and if nothing was sent at all, everybody waits for a key
          have hnone := hshape.dispatched_nil htotal
          have herr' : log.status.error = 0 := by
            simp only [SendLog.seen] at herr
            omega
          obtain ⟨message, hmsg, htype⟩ := (hreach.quiet hnone herr').2.2 n hmem
          obtain rfl := Option.some.inj (hun.message.symm.trans hmsg)
          exact absurd htype hun.others.2.1
        · exact hun.pass hmem' hreplied hpass

/-! ### Runs -/

theorem Reaches.startState {states₀ : List Node} {ctx₀ : SendContext}
    (hd : DistinctContexts states₀) (hstart : StartState messages [] states₀)
    (hsize : (messages.length : Int) ≤ INT64_MAX)
    (h : Reaches env executors states₀ ctx₀ states ctx history) :
    StartState messages (dispatchedIn history) states ∧
      StartsInOrder messages (dispatchedIn history) := by
  induction h with
  | start =>
      refine ⟨hstart, fun i j p q _ _ _ _ before batch after sent d later hsplit => ?_⟩
      simp [dispatchedIn] at hsplit
  | @next states states' ctx history log c rs keyLocks victims hreach _ hsend hans hend ih =>
      obtain ⟨hstate, hstarts⟩ := ih
      have hdist := hreach.distinct hd
      have horder := (sendReach_of_sendAll hsend).sendOrder hdist hstate hstarts hsize
      have hbatches : dispatchedIn (history ++ [⟨log.dispatched, log.erased, victims⟩])
          = dispatchedIn history ++ [log.dispatched] := by
        simp [dispatchedIn]
      rw [hbatches]
      exact ⟨StartState.round hdist horder hsend hans hend, hstarts.concat horder.order⟩

/-- The states of a block: ascending, and all as made. -/
theorem blockStates_startState (env : ExecuteEnv) (block : Block) :
    StartState (blockMessages env block) [] (blockStates env block).1 where
  ascending := fillStates_ascending _ 0 false List.Pairwise.nil
  unstarted := by
    intro i p hp _
    have hlen : i < (blockMessages env block).length := (List.getElem?_eq_some_iff.mp hp).1
    have hmem : (i : ContextID) ∈ contexts (blockStates env block).1 := by
      rw [(contexts_blockStates env block).mem_iff, ← blockMessages_length env block]
      exact List.mem_map.mpr ⟨i, List.mem_range.mpr hlen, rfl⟩
    obtain ⟨n, hn, hctx⟩ := List.mem_map.mp hmem
    have hfresh := blockStates_fresh env block n hn
    obtain ⟨j, hj, q, hq, hmsg, hkey⟩ := hfresh.frame
    obtain rfl : j = i := Int.ofNat.inj (hj.symm.trans hctx)
    obtain rfl := Option.some.inj (hp.symm.trans hq)
    exact ⟨n, hn, hkey, hctx, (blockMessages_get hp).2, hfresh.error, hmsg⟩

/-- Transactions with the same initial target start in block order.  Contexts are
`int64_t`, which bounds the size of a block. -/
theorem starts_in_block_order {env : ExecuteEnv} {block : Block} {m : Machine}
    (hsize : (block.size : Int) ≤ INT64_MAX)
    (h : Machine.Steps (env.blockEnv block) env.staticCall executors (dmtStart env block) m) :
    StartsInOrder (blockMessages env block)
      (m.history.map BatchLog.dispatched ++ [m.log.dispatched]) := by
  have hd := distinct_blockStates env block
  have hsize' : ((blockMessages env block).length : Int) ≤ INT64_MAX := by
    rw [blockMessages_length]
    exact hsize
  obtain ⟨states, ctx, hreach, hlast⟩ := (Steps.explained hd h).current
  obtain ⟨hstate, hstarts⟩ :=
    hreach.startState hd (blockStates_startState env block) hsize'
  apply StartsInOrder.concat hstarts
  rcases hlast with hnone | ⟨log, c, todo, hsend, hlog⟩
  · rw [hnone]
    simp
  · rw [hlog]
    exact (hsend.sendOrder (hreach.distinct hd) hstate hstarts hsize').order

/-- Two calls of one contract: the second starts in the second batch. -/
theorem starts_in_block_order_two_calls :
    ∃ m : Machine, (m.history.map BatchLog.dispatched ++ [m.log.dispatched]).map
        (List.map Dispatch.contextID) = [[0], [1]] ∧
      StartsInOrder (blockMessages plainEnv (callsTo ["a", "a"]))
        (m.history.map BatchLog.dispatched ++ [m.log.dispatched]) := by
  have h := plainRun_steps (callsTo ["a", "a"]) finishing
    [.visit, .visit, .allSended, .reply 0, .visit, .visit]
  exact ⟨_, by decide +kernel, starts_in_block_order (by decide) h⟩

end BcosScheduler
