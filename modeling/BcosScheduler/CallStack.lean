/-
BcosScheduler/CallStack.lean

Calls return to their callers.

With replies that keep the sequence number, the message of a state belongs to
its top frame (`FrameOk.message`), and under every frame of a call stack lies the
frame whose reply opened it (`CallTree.Frames`).  So a return is sent on with the
number of the caller.  `TurnOk` says for one turn what is claimed of it, in terms
of the turns before; `CallInv.step` carries it through the steps of `DMTExecute`,
whatever number the executive starts at.
-/
import BcosScheduler.FramePass
import BcosScheduler.Turns

namespace BcosScheduler

open CallTree

variable {env : BlockEnv} {executors : Executors} {staticCall : Bool} {ctx : SendContext}
  {turns : List Turn} {t : Turn} {log log' : SendLog} {state state' : ExecutiveState}
  {hint : TraverseHint} {m m' : Machine} {n : Node} {rest : List Node}

/-! ### One state and one turn -/

/-- A state after some turns: its frames are those it opened, nothing but its
turns has changed them, and its message belongs to the top frame or starts the
first one. -/
structure FrameOk (turns : List Turn) (state : ExecutiveState) : Prop where
  frames : Frames (openings turns) state.contextID state.callStack state.currentSeq
  steady : frameAfter turns state.contextID = (state.callStack, state.currentSeq)
  message : ∀ m, state.message = some m →
    (state.callStack = [] ∧ m.requests) ∨ state.callStack.head? = some m.seq

/-- What a turn does to the frames of its transaction, given the turns before. -/
structure TurnOk (turns : List Turn) (t : Turn) : Prop where
  /-- Between two turns nothing changes the frames. -/
  steady : frameAfter turns t.contextID = (t.before.callStack, t.before.currentSeq)
  descending : t.after.callStack.Pairwise (· > ·)
  below : ∀ s ∈ t.after.callStack, s < t.after.currentSeq
  opened : ∀ s ∈ t.after.callStack, ∃ caller,
    ⟨t.contextID, s, caller⟩ ∈ openings (turns ++ [t])
  top : ∀ message, t.message? = some message → t.after.callStack.head? = some message.seq
  /-- What is pushed is the frame the turn opens. -/
  pushes : ∀ s, t.after.callStack = s :: t.before.callStack →
    ∃ caller, t.opening = some ⟨t.contextID, s, caller⟩
  /-- A return goes to the frame that opened the one it returns from. -/
  returns : ∀ reply message, t.before.message = some reply → reply.returns →
    t.message? = some message → ⟨t.contextID, reply.seq, some message.seq⟩ ∈ openings turns
  /-- The transaction ends with the return of its first frame. -/
  ends : t.kind = .finished → ∃ reply, t.before.message = some reply ∧ reply.returns ∧
    ⟨t.contextID, reply.seq, none⟩ ∈ openings turns
  retries : ∀ reply, t.before.message = some reply →
    reply.type = .KEY_LOCK ∨ reply.type = .SEND_BACK ∨ reply.type = .REVERT_KEY_LOCK →
    t.after.callStack = t.before.callStack ∧ t.after.currentSeq = t.before.currentSeq

/-- Every turn of a run is right, and no frame is opened twice. -/
structure TurnsOk (turns : List Turn) : Prop where
  each : ∀ before t after, turns = before ++ t :: after → TurnOk before t
  opensOnce : ((openings turns).map Opening.key).Nodup

theorem TurnsOk.nil : TurnsOk [] where
  each := by simp
  opensOnce := by simp [openings]

theorem TurnsOk.concat (h : TurnsOk turns) (ht : TurnOk turns t)
    (hnew : ∀ o, t.opening = some o → o.key ∉ (openings turns).map Opening.key) :
    TurnsOk (turns ++ [t]) where
  each := by
    intro before k after hsplit
    rcases List.eq_nil_or_concat after with rfl | ⟨after, last, rfl⟩
    · obtain ⟨rfl, heq⟩ := List.append_inj' hsplit rfl
      obtain ⟨rfl, -⟩ := List.cons.inj heq
      exact ht
    · have hsplit' : turns ++ [t] = (before ++ k :: after) ++ [last] := by
        rw [hsplit]
        simp
      exact h.each before k after (List.append_inj' hsplit' rfl).1
  opensOnce := by
    rw [openings_append]
    rcases hopen : t.opening with _ | o
    · simpa [openings, hopen] using h.opensOnce
    · have heq : openings [t] = [o] := by simp [openings, hopen]
      rw [heq]
      exact nodup_keys_concat h.opensOnce (hnew o hopen)

/-- A turn of another transaction does not matter. -/
theorem FrameOk.other (h : FrameOk turns state) (hne : t.contextID ≠ state.contextID) :
    FrameOk (turns ++ [t]) state where
  frames := by
    rw [openings_append]
    apply h.frames.append
    intro o ho
    have hopen : t.opening = some o := by simpa [openings] using ho
    have hctx : o.context = t.contextID := by
      unfold Turn.opening at hopen
      split at hopen
      · split at hopen
        · rw [← Option.some.inj hopen]
        · cases hopen
      · cases hopen
    rw [hctx]
    exact hne
  steady := by
    rw [frameAfter_concat_of_ne turns hne]
    exact h.steady
  message := h.message

/-- The mark `skip` is not looked at. -/
theorem FrameOk.mark (h : FrameOk turns state) (skip : Bool) :
    FrameOk turns { state with skip := skip } :=
  ⟨h.frames, h.steady, h.message⟩

/-- A message of the top frame arrives. -/
theorem FrameOk.reply (h : FrameOk turns state) {reply : ExecutionMessage}
    (htop : state.callStack.head? = some reply.seq) :
    FrameOk turns { state with message := some reply } where
  frames := h.frames
  steady := h.steady
  message := fun m hm => by
    obtain rfl := Option.some.inj hm
    exact Or.inr htop

/-- Only requests come without a frame. -/
theorem FrameOk.framed (h : FrameOk turns state) {message : ExecutionMessage}
    (hmsg : state.message = some message) (hnot : ¬ message.requests) :
    ∃ frames, state.callStack = message.seq :: frames := by
  rcases h.message message hmsg with ⟨-, hreq⟩ | htop
  · exact absurd hreq hnot
  · rcases hstack : state.callStack with _ | ⟨s, frames⟩
    · rw [hstack] at htop
      cases htop
    · rw [hstack] at htop
      exact ⟨frames, by rw [Option.some.inj htop]⟩

theorem ExecutionMessage.returns.not_requests {m : ExecutionMessage} (h : m.returns) :
    ¬ m.requests := by
  rcases h with h | h <;> simp [ExecutionMessage.requests, h]

/-- A turn from a request opens a frame: it is the next number, called from the top
of the stack. -/
theorem FrameOk.opening_eq (h : FrameOk turns state) {request message : ExecutionMessage}
    {after : ExecutiveState} {kind : TurnKind} (hmsg : state.message = some request)
    (hreq : request.requests) (hsent : (⟨kind, state, after⟩ : Turn).message? = some message) :
    (⟨kind, state, after⟩ : Turn).opening
      = some ⟨state.contextID, message.seq, state.callStack.head?⟩ := by
  have hcaller : (if state.callStack = [] then none else some request.seq)
      = state.callStack.head? := by
    rcases h.message request hmsg with ⟨hempty, -⟩ | htop
    · simp [hempty]
    · split_ifs with hempty
      · rw [hempty] at htop
        cases htop
      · exact htop.symm
  unfold Turn.opening
  rw [hsent]
  simp only [hmsg, hreq, if_true, hcaller]
  rfl

theorem opening_of_not_requests {request : ExecutionMessage} (hmsg : t.before.message = some request)
    (hnot : ¬ request.requests) : t.opening = none := by
  unfold Turn.opening
  rw [hmsg]
  split
  next heq _ =>
    obtain rfl := Option.some.inj heq
    rw [if_neg hnot]
  next => rfl

/-! ### Turns keep what holds of states -/

/-- A turn done right: what holds of it, that it opens nothing twice, and the state
it leaves. -/
structure TurnKeeps (turns : List Turn) (t : Turn) : Prop where
  ok : TurnOk turns t
  opens : ∀ o, t.opening = some o → o.key ∉ (openings turns).map Opening.key
  after : FrameOk (turns ++ [t]) t.after

/-- A turn that sends a message, from what it does to the frames. -/
theorem FrameOk.sends (h : FrameOk turns state) {kind : TurnKind} {after : ExecutiveState}
    {reply message : ExecutionMessage} (hmsg : state.message = some reply)
    (hsent : (⟨kind, state, after⟩ : Turn).message? = some message)
    (hctx : after.contextID = state.contextID) (hnone : after.message = none)
    (hframes : Frames (openings (turns ++ [⟨kind, state, after⟩])) state.contextID after.callStack
      after.currentSeq)
    (htop : after.callStack.head? = some message.seq)
    (hpushes : ∀ s, after.callStack = s :: state.callStack →
      ∃ caller, (⟨kind, state, after⟩ : Turn).opening = some ⟨state.contextID, s, caller⟩)
    (hreturns : reply.returns →
      ⟨state.contextID, reply.seq, some message.seq⟩ ∈ openings turns)
    (hretries : ¬ reply.requests → ¬ reply.returns →
      after.callStack = state.callStack ∧ after.currentSeq = state.currentSeq)
    (hopens : ∀ o, (⟨kind, state, after⟩ : Turn).opening = some o →
      o.key ∉ (openings turns).map Opening.key) :
    TurnKeeps turns ⟨kind, state, after⟩ := by
  refine ⟨⟨h.steady, hframes.descending, hframes.below, hframes.linked.opened, ?_, hpushes, ?_, ?_,
    ?_⟩, hopens, hctx ▸ hframes, ?_, ?_⟩
  · intro message' hmessage'
    obtain rfl := Option.some.inj (hsent.symm.trans hmessage')
    exact htop
  · intro reply' message' hreply' hret hmessage'
    obtain rfl := Option.some.inj (hmsg.symm.trans hreply')
    obtain rfl := Option.some.inj (hsent.symm.trans hmessage')
    exact hreturns hret
  · intro hkind
    have hkind' : kind = .finished := hkind
    rw [hkind'] at hsent
    cases hsent
  · intro reply' hreply' htype
    obtain rfl := Option.some.inj (hmsg.symm.trans hreply')
    apply hretries
    · rcases htype with htype | htype | htype <;> simp [ExecutionMessage.requests, htype]
    · rcases htype with htype | htype | htype <;> simp [ExecutionMessage.returns, htype]
  · have hlast := frameAfter_concat_self turns ⟨kind, state, after⟩
    rw [hctx]
    exact hlast
  · exact fun m hm => by cases hnone.symm.trans hm

/-- Push: a request opens the next frame. -/
theorem FrameOk.push (h : FrameOk turns state) {request message : ExecutionMessage}
    {kind : TurnKind} (hmsg : state.message = some request) (hreq : request.requests)
    (hsent : (⟨kind, state, { state with callStack := state.currentSeq :: state.callStack
                                         currentSeq := state.currentSeq + 1
                                         message := none }⟩ : Turn).message? = some message)
    (hseq : message.seq = state.currentSeq) :
    TurnKeeps turns ⟨kind, state, { state with callStack := state.currentSeq :: state.callStack
                                               currentSeq := state.currentSeq + 1
                                               message := none }⟩ := by
  have hopen := h.opening_eq hmsg hreq hsent
  rw [hseq] at hopen
  refine h.sends hmsg hsent rfl rfl ?_ (by rw [hseq]; rfl) (fun s hs => ?_) (fun hret => ?_)
    (fun hnot => ?_) ?_
  · have hopenings := openings_append turns [⟨kind, state, { state with
      callStack := state.currentSeq :: state.callStack
      currentSeq := state.currentSeq + 1
      message := none }⟩]
    rw [hopenings, openings, openings, List.filterMap_cons, hopen]
    exact h.frames.push (lt_add_one _)
  · rw [← (List.cons.inj hs).1]
    exact ⟨_, hopen⟩
  · exact absurd hreq hret.not_requests
  · exact absurd hreq hnot
  · intro o ho
    obtain rfl := Option.some.inj (hopen.symm.trans ho)
    exact h.frames.key_notMem

/-- A turn that opens nothing. -/
theorem openings_concat_of_none (hnone : t.opening = none) :
    openings (turns ++ [t]) = openings turns := by
  simp [openings, hnone]

/-- Pop: a return is sent to the caller. -/
theorem FrameOk.pop (h : FrameOk turns state) {reply message : ExecutionMessage}
    {returned top : Seq} {frames : List Seq} (hmsg : state.message = some reply)
    (hret : reply.returns) (hstack : state.callStack = returned :: top :: frames)
    (hseq : message.seq = top) :
    TurnKeeps turns ⟨.sent message, state, { state with callStack := top :: frames
                                                        message := none }⟩ := by
  have hopen := fun after => opening_of_not_requests (t := ⟨.sent message, state, after⟩) hmsg
    hret.not_requests
  obtain ⟨frames', hframes'⟩ := h.framed hmsg hret.not_requests
  have hreturned : returned = reply.seq := (List.cons.inj (hstack.symm.trans hframes')).1
  have hframes := h.frames
  rw [hstack] at hframes
  refine h.sends hmsg rfl rfl rfl ?_ (by rw [hseq]; rfl) (fun s hs => ?_) (fun _ => ?_)
    (fun _ hnot => absurd hret hnot) (fun o ho => ?_)
  · rw [openings_concat_of_none (hopen _)]
    exact hframes.pop
  · rw [hstack] at hs
    simpa using congrArg List.length hs
  · rw [hseq, ← hreturned]
    exact hframes.caller
  · rw [hopen] at ho
    cases ho

/-- Again: a message of the top frame is sent once more. -/
theorem FrameOk.again (h : FrameOk turns state) {reply message : ExecutionMessage}
    (hmsg : state.message = some reply) (hnot : ¬ reply.requests) (hret : ¬ reply.returns)
    (hseq : message.seq = reply.seq) :
    TurnKeeps turns ⟨.sent message, state, { state with message := none }⟩ := by
  have hopen := fun after => opening_of_not_requests (t := ⟨.sent message, state, after⟩) hmsg hnot
  obtain ⟨frames, hstack⟩ := h.framed hmsg hnot
  refine h.sends hmsg rfl rfl rfl ?_ ?_ (fun s hs => ?_) (fun hret' => absurd hret' hret)
    (fun _ _ => ⟨rfl, rfl⟩) (fun o ho => ?_)
  · rw [openings_concat_of_none (hopen _)]
    exact h.frames
  · simp [hstack, hseq]
  · simpa using congrArg List.length hs
  · rw [hopen] at ho
    cases ho

/-- End: the return of the first frame. -/
theorem FrameOk.finish (h : FrameOk turns state) {reply : ExecutionMessage} {last : Seq}
    (hmsg : state.message = some reply) (hret : reply.returns) (hstack : state.callStack = [last]) :
    TurnOk turns ⟨.finished, state, { state with callStack := state.callStack.tail }⟩ ∧
      (⟨.finished, state, { state with callStack := state.callStack.tail }⟩ : Turn).opening
        = none := by
  obtain ⟨frames, hframes⟩ := h.framed hmsg hret.not_requests
  have hlast : last = reply.seq := (List.cons.inj (hstack.symm.trans hframes)).1
  have hfirst := h.frames
  rw [hstack] at hfirst
  refine ⟨⟨h.steady, ?_, ?_, ?_, ?_, ?_, ?_, ?_, ?_⟩,
    opening_of_not_requests hmsg hret.not_requests⟩
  · simp [hstack]
  · simp [hstack]
  · simp [hstack]
  · exact fun message hmessage => by cases hmessage
  · intro s hs
    simp [hstack] at hs
  · exact fun _ message _ _ hmessage => by cases hmessage
  · intro _
    refine ⟨reply, hmsg, hret, ?_⟩
    rw [← hlast]
    exact hfirst.first
  · intro reply' hreply' htype
    obtain rfl := Option.some.inj (hmsg.symm.trans hreply')
    rcases hret with hret | hret <;> simp [hret] at htype

theorem seq_withTarget (message : ExecutionMessage) (i : ContextID) (seq : Seq) :
    (withTarget env message i seq).seq = message.seq := by
  unfold withTarget
  split_ifs <;> rfl

/-- Whatever `startBatch` sends. -/
theorem FrameOk.prepares (h : FrameOk turns state) {message message' : ExecutionMessage}
    {callStack : List Seq} {currentSeq : Seq} {keyLocks : GraphKeyLocks} {created : Bool}
    (hmsg : state.message = some message)
    (hprep : Prepares env ctx state message callStack currentSeq keyLocks message' created) :
    TurnKeeps turns ⟨.sent (published keyLocks state.contextID message'), state,
      { state with callStack := callStack, currentSeq := currentSeq, message := none }⟩ := by
  have hplain : ∀ {type : MessageType}, message.type = type → type ≠ .MESSAGE → type ≠ .TXHASH →
      type ≠ .FINISHED → type ≠ .REVERT → ¬ message.requests ∧ ¬ message.returns := by
    rintro type rfl h₁ h₂ h₃ h₄
    exact ⟨fun hreq => hreq.elim h₁ h₂, fun hret => hret.elim h₃ h₄⟩
  cases hprep with
  | push htype => exact h.push hmsg htype rfl rfl
  | pop htype hstack => exact h.pop hmsg htype hstack rfl
  | revertKeyLock htype =>
      obtain ⟨hreq, hret⟩ := hplain htype (by simp) (by simp) (by simp) (by simp)
      exact h.again hmsg hreq hret rfl
  | retry htype _ =>
      obtain ⟨hreq, hret⟩ := hplain htype (by simp) (by simp) (by simp) (by simp)
      exact h.again hmsg hreq hret rfl
  | sendBack htype =>
      obtain ⟨hreq, hret⟩ := hplain htype (by simp) (by simp) (by simp) (by simp)
      exact h.again hmsg hreq hret (seq_withTarget _ _ _)

/-! ### DMTExecute -/

/-- The message is that of the top frame of the state. -/
def TopOf (message : ExecutionMessage) (state : ExecutiveState) : Prop :=
  state.callStack.head? = some message.seq

/-- Invariant of `DMTExecute`. -/
structure CallInv (turns : List Turn) (m : Machine) : Prop where
  states : ∀ n ∈ m.states, FrameOk turns n.2
  sent : ∀ n ∈ m.states, ∀ d ∈ m.log.dispatched, n.2.contextID = d.contextID → TopOf d.message n.2
  quiet : Quiet m.log m.cursor

theorem callInv_start {states : List Node} (hstates : ∀ n ∈ states, FrameOk turns n.2)
    (history : List BatchLog) : CallInv turns (Machine.startBatch states ctx history) where
  states := hstates
  sent := by simp [Machine.startBatch]
  quiet := fun _ _ => ⟨rfl, rfl, by simp [Machine.startBatch]⟩

theorem CallInv.blind (m : Machine) (receipts : List (Option Receipt)) (phase : Phase)
    (h : CallInv turns m) : CallInv turns { m with receipts := receipts, phase := phase } :=
  ⟨h.states, h.sent, h.quiet⟩

/-- The turn of a visit. -/
theorem turn_visit (hphase : m.phase = .batching) (htodo : m.todo = n :: rest) :
    m.turn env (m.visit env n rest)
      = if m.cursor.jumps n then none else turnOf env m.log.ctx n.2 := by
  unfold Machine.turn
  rw [htodo]
  simp [hphase]

/-- A visit that fails makes no turn. -/
theorem turn_of_fault {log : SendLog} {c : Cursor} {f : Fault}
    (h : traverseStep (sendCallback env) n rest log c = .error f) :
    (if c.jumps n then none else turnOf env log.ctx n.2) = none := by
  unfold traverseStep at h
  split_ifs at h with hjump
  rw [if_neg hjump]
  unfold turnOf
  rcases hcall : startBatchCallback env log.ctx n.2 with f' | action
  · rfl
  · simp only [sendCallback, hcall] at h
    cases action <;> cases h

/-- A message for the next node: the messages sent before are for nodes behind. -/
theorem CallInv.sent_send (h : CallInv turns m) (hfacts : BatchFacts m)
    (htodo : m.todo = n :: rest) {state : ExecutiveState} {message : ExecutionMessage}
    {created : Bool} (hstate : state.contextID = n.2.contextID) (htop : TopOf message state) :
    ∀ k ∈ m.cursor.visited ++ (n.1, state) :: rest,
      ∀ d ∈ m.log.dispatched ++ [⟨n.2.contextID, message, created⟩],
        k.2.contextID = d.contextID → TopOf d.message k.2 := by
  have hnodup := hfacts.nodup
  rw [htodo] at hnodup
  have hother := otherContexts_of_nodup hnodup
  have hold : ∀ k ∈ m.cursor.visited ++ rest, ∀ d ∈ m.log.dispatched,
      k.2.contextID = d.contextID → TopOf d.message k.2 := by
    intro k hk
    apply h.sent k
    rw [Machine.states, htodo]
    exact ((List.sublist_cons_self n rest).append_left _).subset hk
  intro k hk d hd hctx
  simp only [List.mem_append, List.mem_cons, List.not_mem_nil, or_false] at hk hd
  rcases hd with hd | rfl
  · rcases hk with hk | rfl | hk
    · exact hold k (by simp [hk]) d hd hctx
    · obtain ⟨k, hk, hkd⟩ := List.mem_map.mp (hfacts.behind d hd)
      exact absurd ((hkd.trans hctx.symm).trans hstate) (hother k (by simp [hk]))
    · exact hold k (by simp [hk]) d hd hctx
  · rcases hk with hk | rfl | hk
    · exact absurd hctx (hother k (by simp [hk]))
    · exact htop
    · exact absurd hctx (hother k (by simp [hk]))

/-- A visit keeps the invariant and makes its turn right. -/
theorem CallInv.visit (h : CallInv turns m) (hok : TurnsOk turns) (hfacts : BatchFacts m)
    (hphase : m.phase = .batching) (htodo : m.todo = n :: rest) :
    CallInv (turns ++ (m.turn env (m.visit env n rest)).toList) (m.visit env n rest) ∧
      TurnsOk (turns ++ (m.turn env (m.visit env n rest)).toList) := by
  have hall : ∀ k ∈ m.cursor.visited ++ n :: rest, FrameOk turns k.2 ∧
      ∀ d ∈ m.log.dispatched, k.2.contextID = d.contextID → TopOf d.message k.2 := by
    rw [← htodo]
    exact fun k hk => ⟨h.states k hk, h.sent k hk⟩
  have hnodup := hfacts.nodup
  rw [htodo] at hnodup
  have hother := otherContexts_of_nodup hnodup
  have hn := (hall n (by simp)).1
  have hsub : m.cursor.visited ++ rest ⊆ m.cursor.visited ++ n :: rest :=
    ((List.sublist_cons_self n rest).append_left _).subset
  rw [turn_visit hphase htodo]
  rcases hstep : traverseStep (sendCallback env) n rest m.log m.cursor with f | ⟨log', c', rest'⟩
  · have hvisit : m.visit env n rest = { m with phase := .finished (.fault f) } := by
      simp [Machine.visit, hstep]
    rw [hvisit, turn_of_fault hstep, Option.toList_none, List.append_nil]
    exact ⟨⟨h.states, h.sent, h.quiet⟩, hok⟩
  · have hvisit : m.visit env n rest = { m with todo := rest', cursor := c', log := log' } := by
      simp [Machine.visit, hstep]
    have hquiet := h.quiet.step hstep
    rw [hvisit]
    rcases traverseStep_cases hstep with ⟨hjump, rfl, rfl, rfl⟩ | ⟨hjump, hint, state, hcall, heq⟩
    · rw [if_pos hjump, Option.toList_none, List.append_nil]
      refine ⟨⟨fun k hk => ?_, fun k hk => ?_, hquiet⟩, hok⟩
      · exact (hall k (by simpa [Machine.states, Cursor.keep] using hk)).1
      · exact (hall k (by simpa [Machine.states, Cursor.keep] using hk)).2
    · rw [if_neg (by simp [hjump])]
      rcases sendCallback_turn hcall with ⟨hturn, -, hdisp, skip, rfl⟩ |
        ⟨message, last, hmsg, hret, hstack, rfl, hdisp, hturn⟩ |
        ⟨message, message', callStack, currentSeq, keyLocks, created, hmsg, hprep, rfl, hdisp,
          rfl, hturn⟩
      · -- the state is left where it is, but for the mark
        have hmarked : FrameOk turns { n.2 with skip := skip } ∧
            ∀ d ∈ m.log.dispatched, n.2.contextID = d.contextID → TopOf d.message n.2 :=
          ⟨hn.mark skip, (hall n (by simp)).2⟩
        have hkeep := advance_states (P := fun s => FrameOk turns s ∧
          ∀ d ∈ m.log.dispatched, s.contextID = d.contextID → TopOf d.message s) hall hmarked hint
        rw [← heq] at hkeep
        rw [hturn, Option.toList_none, List.append_nil]
        exact ⟨⟨fun k hk => (hkeep k hk).1, fun k hk d hd => (hkeep k hk).2 d (hdisp ▸ hd),
          hquiet⟩, hok⟩
      · -- the transaction is gone, the others are other transactions
        cases heq
        obtain ⟨hturnOk, hopen⟩ := hn.finish hmsg hret hstack
        rw [hturn, Option.toList_some]
        refine ⟨⟨fun k hk => ?_, fun k hk d hd => ?_, hquiet⟩,
          hok.concat hturnOk fun o ho => by cases hopen.symm.trans ho⟩
        · exact (hall k (hsub hk)).1.other (hother k hk).symm
        · exact (hall k (hsub hk)).2 d (hdisp ▸ hd)
      · cases heq
        have hkeeps := hn.prepares hmsg hprep
        rw [hturn, Option.toList_some]
        refine ⟨⟨fun k hk => ?_, fun k hk d hd hctx => ?_, hquiet⟩,
          hok.concat hkeeps.ok hkeeps.opens⟩
        · simp only [Machine.states, Cursor.keep, List.append_assoc, List.mem_append,
            List.mem_cons, List.not_mem_nil, or_false] at hk
          rcases hk with hk | rfl | hk
          · exact (hall k (by simp [hk])).1.other (hother k (by simp [hk])).symm
          · exact hkeeps.after
          · exact (hall k (by simp [hk])).1.other (hother k (by simp [hk])).symm
        · have htop : TopOf (published keyLocks n.2.contextID message')
              { n.2 with callStack := callStack, currentSeq := currentSeq, message := none } :=
            hkeeps.ok.top _ rfl
          rw [Machine.states, Cursor.keep, List.append_assoc] at hk
          exact h.sent_send hfacts htodo (by rfl) htop k hk d (hdisp ▸ hd) hctx

/-! ### Replies and passes -/

theorem FrameOk.fail (h : FrameOk turns state) (e : Error) :
    FrameOk turns { state with error := some e, message := none } :=
  ⟨h.frames, h.steady, by simp⟩

/-- A reply that keeps the sequence number is one of the top frame. -/
theorem FrameOk.storeReply (h : FrameOk turns state) {d : Dispatch} {reply : Reply}
    {before : List (List ExecutionMessage)} (hkeeps : executors.KeepsFrame)
    (htop : TopOf d.message state) (hreply : executors.reply before d.message reply) :
    FrameOk turns (storeReply reply state) := by
  cases reply with
  | error e => exact h.fail e
  | null => exact h
  | message r =>
      refine h.reply ?_
      rw [hkeeps.seq hreply]
      exact htop

/-- A reply keeps the invariant. -/
theorem CallInv.receive (h : CallInv turns m) (hkeeps : executors.KeepsFrame) {d : Dispatch}
    {reply : Reply} {before : List (List ExecutionMessage)} (hd : d ∈ m.log.dispatched)
    (hreply : executors.reply before d.message reply) :
    CallInv turns (m.receive d.contextID reply) where
  states := by
    intro k hk
    rw [Machine.states_receive] at hk
    obtain ⟨n, hn, rfl⟩ := List.mem_map.mp hk
    unfold Machine.storeAt
    split_ifs with hctx
    · exact (h.states n hn).storeReply hkeeps (h.sent n hn d hd hctx) hreply
    · exact h.states n hn
  sent := by
    intro k hk d' hd' hctx
    rw [Machine.states_receive] at hk
    obtain ⟨n, hn, rfl⟩ := List.mem_map.mp hk
    rw [Machine.contextID_storeAt] at hctx
    have hframe : (Machine.storeAt d.contextID reply n).2.callStack = n.2.callStack := by
      unfold Machine.storeAt
      split_ifs
      · exact (storeReply_sameFrame reply n.2).callStack
      · rfl
    unfold TopOf
    rw [hframe]
    exact h.sent n hn d' hd' hctx
  quiet := by
    -- something was sent
    intro hnone
    have hnone' : m.log.dispatched = [] := hnone
    rw [hnone'] at hd
    cases hd

/-- The deadlock pass changes the type of a message, not its frame. -/
theorem FrameOk.deadLock {s s' : PassContext} (h : FrameOk turns state)
    (htop : ∀ message, state.message = some message → TopOf message state)
    (hcall : deadLockCallback s state = .ok (hint, s', state')) :
    FrameOk turns state' ∧ ∀ message, state'.message = some message → TopOf message state' := by
  rcases deadLockCallback_cases hcall with
    ⟨-, -, rfl⟩ | ⟨message, hmsg, -, -, rfl⟩ | ⟨-, -, rfl⟩
  · exact ⟨h.mark false, htop⟩
  · have hframe := htop message hmsg
    refine ⟨h.reply hframe, fun message' hmsg' => ?_⟩
    obtain rfl := Option.some.inj hmsg'
    exact hframe
  · exact ⟨h, htop⟩

/-- The end of a batch keeps the frames. -/
theorem CallInv.checkBatch (h : CallInv turns m) (hfacts : BatchFacts m) (staticCall : Bool) :
    CallInv turns (m.checkBatch staticCall) := by
  refine Machine.checkBatch_rule staticCall CallInv.blind ⟨h.states, h.sent, h.quiet⟩ ?_ h
  intro states keyLocks victims hall hend
  apply callInv_start
  obtain ⟨herr, ⟨htotal, hpass⟩ | hpass⟩ := endBatch_next hend
  · -- nothing was sent, so everybody waits for a key and has a frame
    have hnone : m.log.dispatched = [] := by
      rw [hfacts.total] at htotal
      exact List.eq_nil_of_length_eq_zero htotal
    have hwaits := (h.quiet hnone herr).2.2
    have hframed : ∀ n ∈ m.states, FrameOk turns n.2 ∧
        ∀ message, n.2.message = some message → TopOf message n.2 := by
      intro n hn
      refine ⟨h.states n hn, fun message hmsg => ?_⟩
      rw [Machine.states, hfacts.ended hall, List.append_nil] at hn
      obtain ⟨message', hmsg', htype⟩ := hwaits n hn
      obtain rfl := Option.some.inj (hmsg.symm.trans hmsg')
      obtain ⟨frames, hstack⟩ := (h.states n (List.mem_append_left _ hn)).framed hmsg
        (by simp [ExecutionMessage.requests, htype])
      simp [TopOf, hstack]
    have hkept := runPass_states (P := fun s => FrameOk turns s ∧
      ∀ message, s.message = some message → TopOf message s)
      (fun hP hcall => hP.1.deadLock hP.2 hcall) hframed hpass
    exact fun n hn => (hkept n hn).1
  · refine runPass_states (P := FrameOk turns) (fun hP hcall => ?_) h.states hpass
    obtain ⟨⟨skip, rfl⟩, -⟩ := keyLockCallback_keeps hcall
    exact FrameOk.mark hP skip

/-! ### Runs of DMTExecute -/

/-- A step that is no visit makes no turn. -/
theorem Machine.turn_cases (env : BlockEnv) (m m' : Machine) :
    m.turn env m' = none ∨ m.phase = .batching ∧ ∃ n rest, m.todo = n :: rest ∧
      m' = m.visit env n rest := by
  unfold Machine.turn
  split
  next n rest htodo =>
    split_ifs with hvisit
    · exact Or.inl rfl
    · exact Or.inr ⟨hvisit.1, n, rest, htodo, hvisit.2⟩
    · exact Or.inl rfl
  next => exact Or.inl rfl

/-- One step of `DMTExecute` keeps the invariant and makes its turn right. -/
theorem CallInv.step (hkeeps : executors.KeepsFrame) {states₀ : List Node} {ctx₀ : SendContext}
    (hd : DistinctContexts states₀) (hexplained : Explained env executors staticCall states₀ ctx₀ m)
    (h : CallInv turns m) (hok : TurnsOk turns)
    (hstep : Machine.Step env staticCall executors m m') :
    CallInv (turns ++ (m.turn env m').toList) m' ∧
      TurnsOk (turns ++ (m.turn env m').toList) := by
  rcases Machine.turn_cases env m m' with hnone | ⟨hphase, n, rest, htodo, rfl⟩
  · rw [hnone, Option.toList_none, List.append_nil]
    refine ⟨?_, hok⟩
    cases hstep with
    | @visit n rest hphase htodo =>
        obtain ⟨states, ctx, hdistinct, hmid⟩ := hexplained.facts hd hphase
        have hvisit : CallInv (turns ++ (m.turn env (m.visit env n rest)).toList) _ :=
          (h.visit hok (hmid.facts hdistinct) hphase htodo).1
        rwa [hnone, Option.toList_none, List.append_nil] at hvisit
    | allSended _ _ => exact ⟨h.states, h.sent, h.quiet⟩
    | check hphase _ _ =>
        obtain ⟨states, ctx, hdistinct, hmid⟩ := hexplained.facts hd hphase
        exact h.checkBatch (hmid.facts hdistinct) staticCall
    | reply hphase hdisp hnew hreply =>
        obtain ⟨states, ctx, hdistinct, hmid⟩ := hexplained.facts hd hphase
        exact (h.receive hkeeps hdisp hreply).checkBatch
          ((hmid.receive hdistinct hdisp hnew hreply).facts hdistinct) staticCall
    | hash _ _ => exact Machine.hashDone_rule env CallInv.blind h _
  · obtain ⟨states, ctx, hdistinct, hmid⟩ := hexplained.facts hd hphase
    exact h.visit hok (hmid.facts hdistinct) hphase htodo

/-! ### Nothing is popped from an empty stack -/

theorem checkBatch_phase (h : m.phase ≠ .finished (.fault .emptyPop)) (staticCall : Bool) :
    (m.checkBatch staticCall).phase ≠ .finished (.fault .emptyPop) := by
  unfold Machine.checkBatch
  split_ifs
  · rcases hend : endBatch m.log.status m.states m.log.ctx.keyLocks with
      e | f | ⟨states, keyLocks, victims⟩
    · simp [Machine.afterBatch]
    · have hfault : f ≠ .emptyPop := by
        unfold endBatch at hend
        split_ifs at hend
        · obtain ⟨n, -, s, hcall⟩ := runPass_fault deadLockCallback_updates hend
          simp [(deadLockCallback_error hcall).1]
        · obtain ⟨n, -, s, hcall⟩ := runPass_fault keyLockCallback_updates hend
          rcases keyLockCallback_error hcall with ⟨rfl, -⟩ | ⟨-, e, -, -, -, rfl⟩
          · simp
          · simp
      simpa [Machine.afterBatch] using hfault
    · unfold Machine.afterBatch Machine.finish
      dsimp only
      split_ifs <;> simp [Machine.startBatch]
  · exact h

/-- A return has a frame to return from. -/
theorem CallInv.step_phase (h : CallInv turns m) (hphase : m.phase ≠ .finished (.fault .emptyPop))
    (hstep : Machine.Step env staticCall executors m m') :
    m'.phase ≠ .finished (.fault .emptyPop) := by
  cases hstep with
  | @visit n rest hbatch htodo =>
      rcases hvisit : traverseStep (sendCallback env) n rest m.log m.cursor with f | r
      · have hfault : f ≠ .emptyPop := by
          rintro rfl
          have hcall := traverseStep_error hvisit
          unfold sendCallback at hcall
          rcases haction : startBatchCallback env m.log.ctx n.2 with f | action
          · rw [haction] at hcall
            cases hcall
            rcases startBatchCallback_error haction with ⟨-, hassert⟩ |
              ⟨message, hmsg, hret, hempty, -⟩
            · cases hassert
            · have hn := h.states n (by simp [Machine.states, htodo])
              have hret' : message.returns := hret
              obtain ⟨frames, hstack⟩ := hn.framed hmsg hret'.not_requests
              rw [hempty] at hstack
              cases hstack
          · rw [haction] at hcall
            cases action <;> cases hcall
        simpa [Machine.visit, hvisit] using hfault
      · simpa [Machine.visit, hvisit] using hphase
  | allSended _ _ => exact hphase
  | check _ _ _ => exact checkBatch_phase hphase staticCall
  | reply _ _ _ _ => exact checkBatch_phase (m := m.receive _ _) hphase staticCall
  | @hash answer _ _ => cases answer <;> simp [Machine.hashDone]

end BcosScheduler
