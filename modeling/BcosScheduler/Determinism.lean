/-
BcosScheduler/Determinism.lean

All nodes of the chain agree on a block: with executors that answer by
function, two runs of `DMTExecute` that differ in the order of the replies go
through the same batches and end alike (`dmtExecute_deterministic`).
-/
import BcosScheduler.AsyncExecute

namespace BcosScheduler

/-- Executors whose answers depend only on what they are asked and on the
messages of earlier batches, and so does the state root of `batchGetHashes`, whose
handlers are atomic. -/
structure Executors.Functional (executors : Executors) : Prop where
  reply : ∀ {before message r r'}, executors.reply before message r →
    executors.reply before message r' → r = r'
  hash : ∀ {before a a'}, executors.hash before a → executors.hash before a' → a = a'

variable {env : BlockEnv} {executors : Executors} {staticCall : Bool}
  {states₀ states states' : List Node} {ctx₀ ctx ctx' : SendContext}
  {history history' : List BatchLog} {log log' : SendLog} {c c' : Cursor}
  {rs rs' : List (ContextID × Reply)}

/-! ### One round -/

/-- The answers to a batch are the same up to order. -/
theorem Answers.perm_of_functional (hfun : executors.Functional)
    (hnodup : log.sentTo.Nodup) (h : Answers executors history log rs)
    (h' : Answers executors history log rs') : rs.Perm rs' := by
  have hunique : ∀ d ∈ log.dispatched, ∀ d' ∈ log.dispatched, d.contextID = d'.contextID →
      d = d' := fun d hd d' hd' heq => List.inj_on_of_nodup_map hnodup hd hd' heq
  -- a reply of one list is the reply of the other to the same message
  have sub : ∀ {qs qs' : List (ContextID × Reply)}, Answers executors history log qs →
      Answers executors history log qs' → ∀ p ∈ qs, p ∈ qs' := by
    intro qs qs' hq hq' p hp
    obtain ⟨d, hd, hctx, hr⟩ := hq.reply p hp
    have hmem : p.1 ∈ qs'.map Prod.fst :=
      hq'.perm.mem_iff.mpr (hq.perm.mem_iff.mp (List.mem_map.mpr ⟨p, hp, rfl⟩))
    obtain ⟨p', hp', hfst⟩ := List.mem_map.mp hmem
    obtain ⟨d', hd', hctx', hr'⟩ := hq'.reply p' hp'
    obtain rfl := hunique d hd d' hd' (by rw [hctx, hctx', hfst])
    have hsnd := hfun.reply hr hr'
    rw [show p = p' from Prod.ext hfst.symm hsnd]
    exact hp'
  have nodup : ∀ {qs : List (ContextID × Reply)}, Answers executors history log qs → qs.Nodup :=
    fun hq => List.Nodup.of_map _ (hq.perm.nodup_iff.mpr hnodup)
  exact (List.perm_ext_iff_of_nodup (nodup h) (nodup h')).mpr fun p => ⟨sub h h' p, sub h' h p⟩

/-- The order of the replies leaves no trace. -/
theorem applyReplies_perm (hperm : rs.Perm rs') (hnodup : (rs.map Prod.fst).Nodup) (n : Node) :
    applyReplies rs n = applyReplies rs' n := by
  have hnodup' : (rs'.map Prod.fst).Nodup := (hperm.map _).nodup_iff.mp hnodup
  by_cases hmem : n.2.contextID ∈ rs.map Prod.fst
  · obtain ⟨p, hp, hfst⟩ := List.mem_map.mp hmem
    have hp₁ : (n.2.contextID, p.2) ∈ rs := by rw [← hfst]; exact hp
    rw [applyReplies_of_mem hnodup hp₁, applyReplies_of_mem hnodup' (hperm.mem_iff.mp hp₁)]
  · have hmem' : n.2.contextID ∉ rs'.map Prod.fst :=
      fun h => hmem ((hperm.map _).mem_iff.mpr h)
    rw [applyReplies_of_notMem hmem, applyReplies_of_notMem hmem']

theorem roundEnd_perm (hperm : rs.Perm rs') (hnodup : (rs.map Prod.fst).Nodup) :
    roundEnd log c rs = roundEnd log c rs' := by
  have hstatus : (log.seen rs true).status = (log.seen rs' true).status := by
    simp [SendLog.seen, hperm.length_eq, hperm.countP_eq]
  have hstates : c.visited.map (applyReplies rs) = c.visited.map (applyReplies rs') :=
    List.map_congr_left fun n _ => applyReplies_perm hperm hnodup n
  rw [roundEnd, roundEnd, hstatus, hstates]

/-- A batch sends the same and ends the same way whatever the order of its
replies. -/
theorem roundEnd_unique (hfun : executors.Functional) (hd : DistinctContexts states)
    (hsend : sendAll env states ctx = .ok (log, c)) (h : Answers executors history log rs)
    (hsend' : sendAll env states ctx = .ok (log', c')) (h' : Answers executors history log' rs') :
    log = log' ∧ roundEnd log c rs = roundEnd log' c' rs' := by
  rw [hsend] at hsend'
  cases hsend'
  have hnodup := ((sendReach_of_sendAll hsend).shape hd.keyed hd.nodup).sentNodup
  exact ⟨rfl, roundEnd_perm (h.perm_of_functional hfun hnodup h') (h.perm.nodup_iff.mpr hnodup)⟩

/-! ### Sequences of rounds -/

/-- The number of batches determines where the next one starts. -/
theorem Reaches.unique (hfun : executors.Functional) (hd : DistinctContexts states₀)
    (h : Reaches env executors states₀ ctx₀ states ctx history) :
    ∀ {states' ctx' history'}, Reaches env executors states₀ ctx₀ states' ctx' history' →
      history.length = history'.length → states = states' ∧ ctx = ctx' ∧ history = history' := by
  induction h with
  | start =>
      intro states' ctx' history' h' hlen
      cases h' with
      | start => exact ⟨rfl, rfl, rfl⟩
      | next => simp at hlen
  | next hprev _ hsend hanswers hend ih =>
      intro states' ctx' history' h' hlen
      cases h' with
      | start => simp at hlen
      | next hprev' _ hsend' hanswers' hend' =>
          -- the last round started from the same states and members in both
          obtain ⟨rfl, rfl, rfl⟩ := ih hprev' (by simpa using hlen)
          obtain ⟨rfl, heq⟩ :=
            roundEnd_unique hfun (hprev.distinct hd) hsend hanswers hsend' hanswers'
          rw [hend, hend'] at heq
          cases heq
          exact ⟨rfl, rfl, rfl⟩

/-- Every shorter history was reached on the way, and went on. -/
theorem Reaches.wentOn (h : Reaches env executors states₀ ctx₀ states ctx history) :
    ∀ k < history.length, ∃ states' ctx' log c rs states'' keyLocks victims,
      Reaches env executors states₀ ctx₀ states' ctx' (history.take k) ∧
      (states' = [] → history.take k = []) ∧ sendAll env states' ctx' = .ok (log, c) ∧
      Answers executors (history.take k) log rs ∧
      roundEnd log c rs = .next states'' keyLocks victims := by
  induction h with
  | start => simp
  | @next states states' ctx history log c rs keyLocks victims hprev hfirst hsend hanswers hend ih =>
      intro k hk
      rw [List.length_append, List.length_singleton] at hk
      rcases Nat.lt_or_ge k history.length with hlt | hge
      · rw [List.take_append_of_le_length hlt.le]
        exact ih k hlt
      · have hlen : k = history.length := by omega
        rw [hlen, List.take_left']
        · exact ⟨states, ctx, log, c, rs, states', keyLocks, victims, hprev, hfirst, hsend,
            hanswers, hend⟩
        · rfl

/-- Two histories are prefixes of one sequence of batches. -/
theorem Reaches.comparable (hfun : executors.Functional) (hd : DistinctContexts states₀)
    (h : Reaches env executors states₀ ctx₀ states ctx history)
    (h' : Reaches env executors states₀ ctx₀ states' ctx' history')
    (hle : history.length ≤ history'.length) : history <+: history' := by
  rcases hle.eq_or_lt with heq | hlt
  · obtain ⟨-, -, rfl⟩ := h.unique hfun hd h' heq
    exact List.prefix_refl _
  · obtain ⟨_, _, _, _, _, _, _, _, hk, -⟩ := h'.wentOn _ hlt
    obtain ⟨-, -, heq⟩ := h.unique hfun hd hk (by simp [hlt.le])
    rw [heq]
    exact List.take_prefix _ _

/-! ### Stops of one traversal -/

/-- One turn of the sending traversal, between stops. -/
def SendStep (env : BlockEnv) (x y : SendLog × Cursor × List Node) : Prop :=
  ∃ n rest, x.2.2 = n :: rest ∧ traverseStep (sendCallback env) n rest x.1 x.2.1 = .ok y

theorem SendReach.path {todo : List Node} (h : SendReach env states ctx log c todo) :
    Relation.ReflTransGen (SendStep env)
      ({ ctx := { ctx with calledContract := [] } }, {}, states) (log, c, todo) := by
  induction h with
  | start => exact .refl
  | step _ hstep ih => exact ih.tail ⟨_, _, rfl, hstep⟩

theorem SendStep.unique {x y z : SendLog × Cursor × List Node} (hy : SendStep env x y)
    (hz : SendStep env x z) : y = z := by
  obtain ⟨n, rest, hx, hy⟩ := hy
  obtain ⟨n', rest', hx', hz⟩ := hz
  rw [hx] at hx'
  cases hx'
  rw [hy] at hz
  cases hz
  rfl

theorem SendStep.dispatched {x y : SendLog × Cursor × List Node} (h : SendStep env x y) :
    x.1.dispatched <+: y.1.dispatched := by
  obtain ⟨n, rest, -, hstep⟩ := h
  rcases sendStep_cases hstep with ⟨-, heq, -, -⟩ | ⟨-, hint, state, hsends, -⟩
  · rw [heq]
  · revert hsends
    generalize y.1 = l
    intro hsends
    cases hsends
    case send => exact List.prefix_append _ _
    all_goals exact List.prefix_refl _

theorem SendStep.dispatched_mono {x y : SendLog × Cursor × List Node}
    (h : Relation.ReflTransGen (SendStep env) x y) : x.1.dispatched <+: y.1.dispatched := by
  induction h with
  | refl => exact List.prefix_refl _
  | tail _ hstep ih => exact ih.trans hstep.dispatched

/-- Two stops lie on one way. -/
theorem SendReach.comparable {todo todo' : List Node}
    (h : SendReach env states ctx log c todo) (h' : SendReach env states ctx log' c' todo') :
    Relation.ReflTransGen (SendStep env) (log, c, todo) (log', c', todo') ∨
      Relation.ReflTransGen (SendStep env) (log', c', todo') (log, c, todo) :=
  Relation.ReflTransGen.total_of_right_unique (fun _ _ _ hy hz => hy.unique hz) h.path h'.path

/-- A traversal fails at one stop only. -/
theorem SendFault.unique {f f' : Fault} (h : SendFault env states ctx log f)
    (h' : SendFault env states ctx log' f') : log = log' ∧ f = f' := by
  obtain ⟨c, n, rest, hreach, hfail⟩ := h
  obtain ⟨c', n', rest', hreach', hfail'⟩ := h'
  -- no way leads on from a stop at which the traversal fails
  have stuck : ∀ {l : SendLog} {k : Cursor} {a : Node} {as : List Node} {g : Fault}
      {y : SendLog × Cursor × List Node}, traverseStep (sendCallback env) a as l k = .error g →
      Relation.ReflTransGen (SendStep env) (l, k, a :: as) y → y = (l, k, a :: as) := by
    intro l k a as g y hg hpath
    rcases hpath.cases_head with heq | ⟨z, ⟨b, bs, hb, hz⟩, -⟩
    · exact heq.symm
    · cases hb
      rw [hg] at hz
      cases hz
  rcases hreach.comparable hreach' with hp | hp
  · have heq := stuck hfail hp
    cases heq
    rw [hfail] at hfail'
    cases hfail'
    exact ⟨rfl, rfl⟩
  · have heq := stuck hfail' hp
    cases heq
    rw [hfail] at hfail'
    cases hfail'
    exact ⟨rfl, rfl⟩

theorem SendFault.sendAll_error {f : Fault} (h : SendFault env states ctx log f) :
    sendAll env states ctx = .error f := by
  obtain ⟨c, n, rest, hreach, hfail⟩ := h
  rw [hreach.sendAll_eq, traverseFrom_cons, hfail]

/-! ### Ends -/

/-- How `DMTExecute` ends with no state left. -/
def EmptyEnd (env : BlockEnv) (executors : Executors) (staticCall : Bool) (ctx : SendContext)
    (history : List BatchLog) (outcome : Outcome) (receipts : List (Option Receipt)) : Prop :=
  if staticCall then
    outcome = .success none ∧ receipts = ctx.executiveResults.map ExecutiveResult.receipt
  else
    (∃ hash, executors.hash (messagesOf history) (.ok hash) ∧
      outcome = .success (some ⟨env.number, hash, ctx.gasUsed⟩) ∧
      receipts = ctx.executiveResults.map ExecutiveResult.receipt) ∨
    ∃ e, executors.hash (messagesOf history) (.error e) ∧
      outcome = .error (SchedulerError.UnknownError.error "Unknown error") ∧ receipts = []

/-- How `DMTExecute` ends at the batch that starts with `states` and `ctx`: the
outcome, the members, what the last batch sent, and the receipts. -/
inductive Ending (env : BlockEnv) (executors : Executors) (staticCall : Bool)
    (states : List Node) (ctx : SendContext) (history : List BatchLog) :
    Outcome → SendContext → List Dispatch → List (Option Receipt) → Prop
  | empty {outcome : Outcome} {receipts : List (Option Receipt)} : states = [] → history ≠ [] →
      EmptyEnd env executors staticCall ctx history outcome receipts →
      Ending env executors staticCall states ctx history outcome { ctx with calledContract := [] }
        [] receipts
  | batchError {log : SendLog} {c : Cursor} {rs : List (ContextID × Reply)} {e : Error} :
      (states = [] → history = []) → sendAll env states ctx = .ok (log, c) →
      Answers executors history log rs → roundEnd log c rs = .error e →
      Ending env executors staticCall states ctx history
        (.error (SchedulerError.DMTError.error "Execute with errors")) log.ctx log.dispatched []
  | sendFault {log : SendLog} {f : Fault} : (states = [] → history = []) →
      SendFault env states ctx log f →
      Ending env executors staticCall states ctx history (.fault f) log.ctx log.dispatched []
  | roundFault {log : SendLog} {c : Cursor} {rs : List (ContextID × Reply)} {f : Fault} :
      (states = [] → history = []) → sendAll env states ctx = .ok (log, c) →
      Answers executors history log rs → roundEnd log c rs = .fault f →
      Ending env executors staticCall states ctx history (.fault f) log.ctx log.dispatched []

/-- A finished machine has an end. -/
theorem Explained.ending {m : Machine} {o : Outcome}
    (h : Explained env executors staticCall states₀ ctx₀ m) (hphase : m.phase = .finished o) :
    ∃ states ctx, Reaches env executors states₀ ctx₀ states ctx m.history ∧
      Ending env executors staticCall states ctx m.history o m.log.ctx m.log.dispatched
        m.receipts := by
  unfold Explained at h
  rw [hphase] at h
  rcases o with e | header | f
  · obtain ⟨hreceipts, ⟨states, ctx, log, c, rs, hreach, hfirst, hsend, hanswers, hend, hctx, hdisp,
      rfl⟩ | ⟨hstatic, ctx, e', ⟨hreach, hne, -, hlog⟩, hhash, rfl⟩⟩ := h
    · refine ⟨states, ctx, hreach, ?_⟩
      rw [hreceipts, hctx, hdisp]
      exact .batchError hfirst hsend hanswers hend
    · refine ⟨[], ctx, hreach, ?_⟩
      rw [hreceipts, hlog]
      refine .empty rfl hne ?_
      rw [EmptyEnd, if_neg (by simp [hstatic])]
      exact Or.inr ⟨e', hhash, rfl, rfl⟩
  · obtain ⟨ctx, ⟨hreach, hne, -, hlog⟩, hreceipts, hkind⟩ := h
    refine ⟨[], ctx, hreach, ?_⟩
    rw [hreceipts, hlog]
    refine .empty rfl hne ?_
    rcases hkind with ⟨hstatic, rfl⟩ | ⟨hstatic, hash, hhash, rfl⟩
    · rw [EmptyEnd, if_pos hstatic]
      exact ⟨rfl, rfl⟩
    · rw [EmptyEnd, if_neg (by simp [hstatic])]
      exact Or.inl ⟨hash, hhash, rfl, rfl⟩
  · obtain ⟨hreceipts, states, ctx, log, hreach, hfirst, hctx, hdisp, hkind⟩ := h
    refine ⟨states, ctx, hreach, ?_⟩
    rw [hreceipts, hctx, hdisp]
    rcases hkind with hfault | ⟨c, rs, hsend, hanswers, hend⟩
    · exact .sendFault hfirst hfault
    · exact .roundFault hfirst hsend hanswers hend

/-- After an end no batch is completed. -/
theorem Ending.last {outcome : Outcome} {members : SendContext} {sent : List Dispatch}
    {receipts : List (Option Receipt)} (hfun : executors.Functional) (hd : DistinctContexts states)
    (h : Ending env executors staticCall states ctx history outcome members sent receipts)
    (hfirst : states = [] → history = []) (hsend : sendAll env states ctx = .ok (log, c))
    (hanswers : Answers executors history log rs) {keyLocks : GraphKeyLocks}
    {victims : List ContextID} : roundEnd log c rs ≠ .next states' keyLocks victims := by
  intro hnext
  cases h with
  | empty hnil hne => exact hne (hfirst hnil)
  | batchError _ hsend' hanswers' hend =>
      obtain ⟨-, heq⟩ := roundEnd_unique hfun hd hsend hanswers hsend' hanswers'
      rw [hnext, hend] at heq
      cases heq
  | sendFault _ hfault =>
      rw [hfault.sendAll_error] at hsend
      cases hsend
  | roundFault _ hsend' hanswers' hend =>
      obtain ⟨-, heq⟩ := roundEnd_unique hfun hd hsend hanswers hsend' hanswers'
      rw [hnext, hend] at heq
      cases heq

theorem EmptyEnd.unique (hfun : executors.Functional) {o o' : Outcome}
    {receipts receipts' : List (Option Receipt)}
    (h : EmptyEnd env executors staticCall ctx history o receipts)
    (h' : EmptyEnd env executors staticCall ctx history o' receipts') :
    o = o' ∧ receipts = receipts' := by
  unfold EmptyEnd at h h'
  split_ifs at h h'
  · exact ⟨h.1.trans h'.1.symm, h.2.trans h'.2.symm⟩
  · rcases h with ⟨hash, hh, rfl, rfl⟩ | ⟨e, hh, rfl, rfl⟩ <;>
      rcases h' with ⟨hash', hh', rfl, rfl⟩ | ⟨e', hh', rfl, rfl⟩
    · cases hfun.hash hh hh'
      exact ⟨rfl, rfl⟩
    · cases hfun.hash hh hh'
    · cases hfun.hash hh hh'
    · exact ⟨rfl, rfl⟩

theorem Ending.unique {o o' : Outcome} {members members' : SendContext}
    {sent sent' : List Dispatch} {receipts receipts' : List (Option Receipt)}
    (hfun : executors.Functional) (hd : DistinctContexts states)
    (h : Ending env executors staticCall states ctx history o members sent receipts)
    (h' : Ending env executors staticCall states ctx history o' members' sent' receipts') :
    o = o' ∧ members = members' ∧ sent = sent' ∧ receipts = receipts' := by
  cases h with
  | empty hnil hne hend =>
      cases h' with
      | empty _ _ hend' =>
          obtain ⟨rfl, rfl⟩ := hend.unique hfun hend'
          exact ⟨rfl, rfl, rfl, rfl⟩
      | batchError hfirst => exact absurd (hfirst hnil) hne
      | sendFault hfirst => exact absurd (hfirst hnil) hne
      | roundFault hfirst => exact absurd (hfirst hnil) hne
  | batchError hfirst hsend hanswers hend =>
      cases h' with
      | empty hnil hne => exact absurd (hfirst hnil) hne
      | batchError _ hsend' hanswers' =>
          obtain ⟨rfl, -⟩ := roundEnd_unique hfun hd hsend hanswers hsend' hanswers'
          exact ⟨rfl, rfl, rfl, rfl⟩
      | sendFault _ hfault =>
          rw [hfault.sendAll_error] at hsend
          cases hsend
      | roundFault _ hsend' hanswers' hend' =>
          obtain ⟨-, heq⟩ := roundEnd_unique hfun hd hsend hanswers hsend' hanswers'
          rw [hend, hend'] at heq
          cases heq
  | sendFault hfirst hfault =>
      cases h' with
      | empty hnil hne => exact absurd (hfirst hnil) hne
      | batchError _ hsend' =>
          rw [hfault.sendAll_error] at hsend'
          cases hsend'
      | sendFault _ hfault' =>
          obtain ⟨rfl, rfl⟩ := hfault.unique hfault'
          exact ⟨rfl, rfl, rfl, rfl⟩
      | roundFault _ hsend' =>
          rw [hfault.sendAll_error] at hsend'
          cases hsend'
  | roundFault hfirst hsend hanswers hend =>
      cases h' with
      | empty hnil hne => exact absurd (hfirst hnil) hne
      | batchError _ hsend' hanswers' hend' =>
          obtain ⟨-, heq⟩ := roundEnd_unique hfun hd hsend hanswers hsend' hanswers'
          rw [hend, hend'] at heq
          cases heq
      | sendFault _ hfault =>
          rw [hfault.sendAll_error] at hsend
          cases hsend
      | roundFault _ hsend' hanswers' hend' =>
          obtain ⟨rfl, heq⟩ := roundEnd_unique hfun hd hsend hanswers hsend' hanswers'
          rw [hend, hend'] at heq
          cases heq
          exact ⟨rfl, rfl, rfl, rfl⟩

/-- An end is not passed by. -/
theorem Ending.length_le {states₁ states₂ : List Node} {ctx₁ ctx₂ : SendContext}
    {history₁ history₂ : List BatchLog} {o : Outcome} {members : SendContext}
    {sent : List Dispatch} {receipts : List (Option Receipt)}
    (hfun : executors.Functional) (hd : DistinctContexts states₀)
    (h₁ : Reaches env executors states₀ ctx₀ states₁ ctx₁ history₁)
    (hend : Ending env executors staticCall states₁ ctx₁ history₁ o members sent receipts)
    (h₂ : Reaches env executors states₀ ctx₀ states₂ ctx₂ history₂) :
    history₂.length ≤ history₁.length := by
  -- a longer history went on from the batch at which the other one has ended
  by_contra hlt
  obtain ⟨states, ctx, log, c, rs, states', keyLocks, victims, hreach, hfirst, hsend, hanswers,
    hnext⟩ := h₂.wentOn history₁.length (by omega)
  obtain ⟨rfl, rfl, heq⟩ := h₁.unique hfun hd hreach (by simp; omega)
  rw [← heq] at hfirst hanswers
  exact hend.last hfun (h₁.distinct hd) hfirst hsend hanswers hnext

/-! ### Two runs -/

/-- Where a machine stands in its current batch. -/
theorem Explained.current {m : Machine} (h : Explained env executors staticCall states₀ ctx₀ m) :
    ∃ states ctx, Reaches env executors states₀ ctx₀ states ctx m.history ∧
      (m.log.dispatched = [] ∨ ∃ log c todo, SendReach env states ctx log c todo ∧
        m.log.dispatched = log.dispatched) := by
  unfold Explained at h
  rcases hphase : m.phase with _ | _ | o
  · rw [hphase] at h
    obtain ⟨states, ctx, hreach, -, hm⟩ := h
    obtain ⟨log, visited, b, hsend, -, hlog, -⟩ := hm.path
    exact ⟨states, ctx, hreach, Or.inr ⟨log, _, _, hsend, by rw [hlog]; rfl⟩⟩
  · rw [hphase] at h
    obtain ⟨-, -, ctx, hreach, -, -, hlog⟩ := h
    exact ⟨[], ctx, hreach, Or.inl (by rw [hlog])⟩
  · obtain ⟨states, ctx, hreach, hend⟩ := Explained.ending (m := m) h hphase
    refine ⟨states, ctx, hreach, ?_⟩
    generalize m.log.dispatched = sent at hend ⊢
    generalize m.log.ctx = members at hend
    generalize m.receipts = receipts at hend
    cases hend with
    | empty => exact Or.inl rfl
    | batchError _ hsend => exact Or.inr ⟨_, _, _, sendReach_of_sendAll hsend, rfl⟩
    | sendFault _ hfault =>
        obtain ⟨c, n, rest, hsend, -⟩ := hfault
        exact Or.inr ⟨_, _, _, hsend, rfl⟩
    | roundFault _ hsend => exact Or.inr ⟨_, _, _, sendReach_of_sendAll hsend, rfl⟩

/-- **Determinism.**  Two runs of one block with executors that answer by
function complete the same batches as far as both go, send the same messages
as far as both go within a batch, and, when both have finished, agree in
batches, messages, victims, results, gas, receipts and outcome. -/
theorem dmtExecute_deterministic {executors : Executors} (hfun : executors.Functional)
    (env : ExecuteEnv) (block : Block) {m₁ m₂ : Machine}
    (h₁ : Machine.Steps (env.blockEnv block) env.staticCall executors (dmtStart env block) m₁)
    (h₂ : Machine.Steps (env.blockEnv block) env.staticCall executors (dmtStart env block) m₂) :
    (m₁.history <+: m₂.history ∨ m₂.history <+: m₁.history) ∧
    (m₁.history = m₂.history → m₁.log.dispatched <+: m₂.log.dispatched ∨
      m₂.log.dispatched <+: m₁.log.dispatched) ∧
    ∀ o₁ o₂, m₁.phase = .finished o₁ → m₂.phase = .finished o₂ →
      o₁ = o₂ ∧ m₁.history = m₂.history ∧ m₁.log.dispatched = m₂.log.dispatched ∧
      m₁.log.ctx.executiveResults = m₂.log.ctx.executiveResults ∧
      m₁.log.ctx.gasUsed = m₂.log.ctx.gasUsed ∧ m₁.receipts = m₂.receipts := by
  have hd := distinct_blockStates env block
  have e₁ := Steps.explained hd h₁
  have e₂ := Steps.explained hd h₂
  obtain ⟨states₁, ctx₁, r₁, sent₁⟩ := e₁.current
  obtain ⟨states₂, ctx₂, r₂, sent₂⟩ := e₂.current
  refine ⟨?_, ?_, ?_⟩
  · rcases le_total m₁.history.length m₂.history.length with hle | hle
    · exact Or.inl (r₁.comparable hfun hd r₂ hle)
    · exact Or.inr (r₂.comparable hfun hd r₁ hle)
  · intro hhist
    obtain ⟨rfl, rfl, -⟩ := r₁.unique hfun hd r₂ (congrArg List.length hhist)
    rcases sent₁ with hnil | ⟨log₁, c₁, todo₁, s₁, hlog₁⟩
    · rw [hnil]
      exact Or.inl List.nil_prefix
    · rcases sent₂ with hnil | ⟨log₂, c₂, todo₂, s₂, hlog₂⟩
      · rw [hnil]
        exact Or.inr List.nil_prefix
      · rw [hlog₁, hlog₂]
        rcases s₁.comparable s₂ with hp | hp
        · exact Or.inl (SendStep.dispatched_mono hp)
        · exact Or.inr (SendStep.dispatched_mono hp)
  · intro o₁ o₂ hp₁ hp₂
    obtain ⟨states₁, ctx₁, r₁, end₁⟩ := e₁.ending hp₁
    obtain ⟨states₂, ctx₂, r₂, end₂⟩ := e₂.ending hp₂
    -- neither end was passed by the other run, so both stand at the same batch
    have hlen := le_antisymm (end₂.length_le hfun hd r₂ r₁) (end₁.length_le hfun hd r₁ r₂)
    obtain ⟨rfl, rfl, hhist⟩ := r₁.unique hfun hd r₂ hlen
    rw [← hhist] at end₂
    obtain ⟨hout, hctx, hsent, hreceipts⟩ := end₁.unique hfun (r₁.distinct hd) end₂
    exact ⟨hout, hhist, hsent, by rw [hctx], by rw [hctx], hreceipts⟩

theorem functional_ofFun (reply : List (List ExecutionMessage) → ExecutionMessage → Reply)
    (hash : List (List ExecutionMessage) → Except Error H256) :
    (Executors.ofFun reply hash).Functional where
  reply h h' := h.trans h'.symm
  hash h h' := h.trans h'.symm

/-- Two calls, once with the replies after the traversal and in reverse order,
once with the first reply in the middle of it. -/
theorem dmtExecute_deterministic_two_calls :
    ∃ (m₁ m₂ : Machine) (o : Option BlockHeader), m₁.phase = .finished (.success o) ∧
      m₂.phase = .finished (.success o) ∧ m₁.history = m₂.history ∧ m₁.receipts = m₂.receipts ∧ m₁.receipts.length = 2 := by
  have h₁ := plainRun_steps (callsTo ["a", "b"]) finishing
    [.visit, .visit, .allSended, .reply 1, .reply 0, .visit, .visit, .allSended, .check, .hash]
  have h₂ := plainRun_steps (callsTo ["a", "b"]) finishing
    [.visit, .reply 0, .visit, .allSended, .reply 1, .visit, .visit, .allSended, .check, .hash]
  have p₁ : (plainRun (callsTo ["a", "b"]) finishing [.visit, .visit, .allSended, .reply 1,
      .reply 0, .visit, .visit, .allSended, .check, .hash]).phase
        = .finished (.success (some ⟨7, 9, 0⟩)) := by decide +kernel
  have p₂ : (plainRun (callsTo ["a", "b"]) finishing [.visit, .reply 0, .visit, .allSended,
      .reply 1, .visit, .visit, .allSended, .check, .hash]).phase
        = .finished (.success (some ⟨7, 9, 0⟩)) := by decide +kernel
  obtain ⟨-, hhist, -, -, -, hreceipts⟩ :=
    (dmtExecute_deterministic (functional_ofFun finishing plainRoot) plainEnv
      (callsTo ["a", "b"]) h₁ h₂).2.2 _ _ p₁ p₂
  exact ⟨_, _, _, p₁, p₂, hhist, hreceipts, by decide +kernel⟩

end BcosScheduler
