/-
BcosScheduler/SkipMarks.lean

The marks of skipped states.

The traversal of `startBatch` marks a state whose contract was called in the
batch and jumps over its key group; the lock pass of `checkBatch` finds the mark,
clears it and jumps over the same group.  So the lock pass acts on the states
that the traversal visited, did not skip and did not erase (`SendMarks`,
`visits_of_marked`), no mark is left when the next batch starts, and there is
none when the deadlock pass runs.
-/
import BcosScheduler.Visits
import BcosScheduler.BatchCompletion
import BcosScheduler.CallReturns
import BcosScheduler.FailingReply

namespace BcosScheduler

/-- What stays of a visit that did not skip. -/
def Visit.kept (v : Visit) : Option Node := if v.hint = .SKIP then none else v.stays

/-- The visits of the traversal that `startBatch` makes over `states`. -/
def sendVisits (env : BlockEnv) (states : List Node) (ctx : SendContext) : List Visit :=
  traverseVisits (sendCallback env) states { ctx := { ctx with calledContract := [] } } {}

/-- The visits of the lock pass. -/
def lockVisits (states : List Node) (keyLocks : GraphKeyLocks) : List Visit :=
  traverseVisits keyLockCallback states { keyLocks := keyLocks } {}

/-- The nodes whose key locks a pass handles. -/
def handled (visits : List Visit) : List Node :=
  (visits.filter fun v => v.hint ≠ .SKIP).map Visit.node

variable {env : BlockEnv} {executors : Executors} {staticCall : Bool} {states₀ states : List Node}
  {ctx₀ ctx : SendContext} {history : List BatchLog} {log log' : SendLog} {c c' : Cursor}
  {n : Node} {todo rest rest' : List Node} {rs : List (ContextID × Reply)}

/-! ### The sending traversal -/

/-- The states are not marked. -/
def Unmarked (states : List Node) : Prop := ∀ n ∈ states, n.2.skip = false

/-- At a stop of the sending traversal: the visits made so far leave what a pass over
the nodes behind will act on, and all of these have their message or it was sent. -/
structure SendMarks (env : BlockEnv) (states : List Node) (ctx : SendContext) (log : SendLog)
    (c : Cursor) (todo : List Node) : Prop where
  ahead : Unmarked todo
  visits : ∃ past, sendVisits env states ctx = past ++ traverseVisits (sendCallback env) todo log c ∧
    (log.status.error = 0 → Marked none c.visited (past.filterMap Visit.kept) c.bound ∧
      ∀ k ∈ past.filterMap Visit.kept, k.2.message ≠ none ∨ k.2.contextID ∈ log.sentTo)

/-- A visit that leaves the node `k` behind, or none. -/
theorem SendMarks.visit (h : SendMarks env states ctx log c (n :: rest)) {v : Visit} {k : Node}
    {active : List Node} {b : Option StateKey}
    (hvisits : traverseVisits (sendCallback env) (n :: rest) log c
      = v :: traverseVisits (sendCallback env) rest' log' c')
    (hrest : ∀ m ∈ rest', m ∈ rest) (hbehind : c'.visited = c.visited ++ [k]) (hbound : c'.bound = b)
    (hmark : Marked c.bound [k] active b) (hkept : v.kept.toList = active)
    (hactive : ∀ m ∈ active, m.2.message ≠ none ∨ m.2.contextID ∈ log'.sentTo)
    (hsent : ∀ i ∈ log.sentTo, i ∈ log'.sentTo) (herror : log'.status.error = log.status.error) :
    SendMarks env states ctx log' c' rest' := by
  obtain ⟨past, hpast, hmarks⟩ := h.visits
  refine ⟨fun m hm => h.ahead m (List.mem_cons_of_mem n (hrest m hm)), past ++ [v], ?_,
    fun hzero => ?_⟩
  · rw [hpast, hvisits, List.append_assoc]
    rfl
  · rw [herror] at hzero
    obtain ⟨hmarked, hmessages⟩ := hmarks hzero
    have hall : (past ++ [v]).filterMap Visit.kept = past.filterMap Visit.kept ++ active := by
      rw [List.filterMap_append, ← hkept]
      rcases hv : v.kept with _ | k <;> simp [hv]
    rw [hall, hbehind, hbound]
    refine ⟨hmarked.append hmark, fun m hm => ?_⟩
    rcases List.mem_append.mp hm with hm | hm
    · exact (hmessages m hm).imp id (hsent _)
    · exact hactive m hm

theorem SendMarks.step (h : SendMarks env states ctx log c (n :: rest))
    (hstep : traverseStep (sendCallback env) n rest log c = .ok (log', c', rest')) :
    SendMarks env states ctx log' c' rest' := by
  have hskip := h.ahead n (by simp)
  rcases traverseStep_cases hstep with ⟨hj, rfl, rfl, rfl⟩ | ⟨hj, hint, state, hcall, heq⟩
  · -- a node that is jumped over carries no mark
    obtain ⟨past, hpast, hmarks⟩ := h.visits
    rw [traverseVisits_jump hj] at hpast
    refine ⟨fun m hm => h.ahead m (List.mem_cons_of_mem n hm), past, hpast, fun hzero => ?_⟩
    obtain ⟨hmarked, hmessages⟩ := hmarks hzero
    have hjump := hmarked.append (.jump hj hskip .nil)
    rw [List.append_nil] at hjump
    exact ⟨hjump, hmessages⟩
  · have hvisits := traverseVisits_visit hj hcall heq
    have hsends := sendCallback_sends hcall
    cases hsends with
    | error =>
        cases heq
        obtain ⟨past, hpast, -⟩ := h.visits
        refine ⟨by simp [Unmarked], past ++ [⟨n, .END, n.2⟩], ?_, fun hzero => by simp at hzero⟩
        rw [hpast, hvisits, List.append_assoc]
        rfl
    | skip =>
        cases heq
        exact h.visit hvisits (fun _ hm => hm) rfl rfl (.skip hj rfl .nil) rfl (by simp)
          (fun _ hi => hi) rfl
    | @wait message _ hmsg =>
        cases heq
        refine h.visit hvisits (fun _ hm => hm) rfl rfl (.act hj hskip .nil) rfl (fun m hm => ?_)
          (fun _ hi => hi) rfl
        rw [List.mem_singleton.mp hm]
        exact Or.inl (by simp [hmsg])
    | erase =>
        cases heq
        obtain ⟨past, hpast, hmarks⟩ := h.visits
        refine ⟨fun m hm => h.ahead m (List.mem_cons_of_mem n hm), past ++ [⟨n, .DELETE, n.2⟩], ?_,
          fun hzero => ?_⟩
        · rw [hpast, hvisits, List.append_assoc]
          rfl
        · have hnone : [(⟨n, .DELETE, n.2⟩ : Visit)].filterMap Visit.kept = [] := rfl
          rw [List.filterMap_append, hnone, List.append_nil]
          exact hmarks hzero
    | @send message message' callStack currentSeq keyLocks created =>
        cases heq
        have hsent : (log.sent keyLocks n.2.contextID message' created).sentTo
            = log.sentTo ++ [n.2.contextID] := by
          simp [SendLog.sentTo, SendLog.sent]
        refine h.visit hvisits (fun _ hm => hm) rfl rfl (.act hj hskip .nil) rfl (fun m hm => ?_)
          (fun i hi => ?_) rfl
        · rw [List.mem_singleton.mp hm, hsent]
          exact Or.inr (by simp)
        · rw [hsent]
          exact List.mem_append_left _ hi

theorem SendReach.sendMarks (hunmarked : Unmarked states)
    (h : SendReach env states ctx log c todo) : SendMarks env states ctx log c todo := by
  induction h with
  | start => exact ⟨hunmarked, [], rfl, fun _ => ⟨.nil, by simp⟩⟩
  | step _ hstep ih => exact ih.step hstep

/-- Replies change nothing for the traversal ahead. -/
theorem traverseVisits_seen (rs : List (ContextID × Reply)) (sended : Bool) :
    ∀ {todo : List Node} {log : SendLog} {c c' : Cursor}, c'.bound = c.bound →
      traverseVisits (sendCallback env) todo (log.seen rs sended) c'
        = traverseVisits (sendCallback env) todo log c := by
  intro todo
  induction todo with
  | nil => exact fun _ => rfl
  | cons n rest ih =>
      intro log c c' hbound
      have hjumps : c'.jumps n = c.jumps n := by
        rw [Cursor.jumps, Cursor.jumps, hbound]
      rcases hj : c.jumps n with _ | _
      · rw [hj] at hjumps
        have hseen : sendCallback env (log.seen rs sended) n.2 = _ :=
          sendCallback_seen log rs sended n.2
        rcases hcall : sendCallback env log n.2 with f | ⟨hint, log', state⟩
        · rw [hcall] at hseen
          simp only [traverseVisits, hj, hjumps, hcall, hseen]
          rfl
        · rw [hcall] at hseen
          have hadvance : (c'.advance hint (n.1, state) rest).1.bound
              = (c.advance hint (n.1, state) rest).1.bound := by
            cases hint with
            | SKIP => rfl
            | _ => exact hbound
          simp only [traverseVisits, hj, hjumps, hcall, hseen, Bool.false_eq_true, if_false,
            ih hadvance]
      · rw [hj] at hjumps
        rw [traverseVisits_jump hj, traverseVisits_jump hjumps]
        exact ih hbound

/-! ### The passes of checkBatch -/

/-- The lock pass goes on behind a node without mark. -/
theorem keyLockCallback_goes {s s' : PassContext} {state state' : ExecutiveState}
    {hint : TraverseHint} (hskip : state.skip = false)
    (h : keyLockCallback s state = .ok (hint, s', state')) :
    (hint = .PASS ∨ hint = .UPDATE) ∧ state' = state := by
  rcases hmsg : state.message with _ | message
  · simp [keyLockCallback, hskip, hmsg] at h
  · obtain ⟨hhint, hsame, -⟩ := keyLockCallback_cases hskip hmsg h
    exact ⟨hhint, hsame⟩

/-- The lock pass over nodes whose active ones have messages: it handles these, takes all
marks off, and fails only by a throw. -/
theorem lockPass_handles {nodes active : List Node} {b : Option StateKey}
    {keyLocks : GraphKeyLocks} (hd : DistinctContexts nodes)
    (hmarked : Marked none nodes active b) (hmessages : ∀ k ∈ active, k.2.message ≠ none)
    (hthrow : ∀ e, runPass keyLockCallback nodes keyLocks ≠ .fault (.exception e)) :
    handled (lockVisits nodes keyLocks) = active ∧
      ∃ states' keyLocks' victims, runPass keyLockCallback nodes keyLocks
        = .next states' keyLocks' victims ∧ Unmarked states' := by
  obtain ⟨hok, herr⟩ := visits_of_marked keyLockCallback_skip
    (fun hs hcall => (keyLockCallback_goes hs hcall).1) hmarked
    (s := { keyLocks := keyLocks }) (c := {}) rfl
  rcases hfrom : traverseFrom keyLockCallback nodes { keyLocks := keyLocks } {} with
    f | ⟨s', c⟩
  · obtain ⟨k, hk, hskip, s, hfail⟩ := herr hfrom
    obtain ⟨e, rfl⟩ := keyLockCallback_throws (hmessages k hk) hfail
    refine absurd ?_ (hthrow e)
    simp [runPass, traverseExecutive, hfrom]
  · have hpass := traverseExecutive_eq keyLockCallback_updates nodes { keyLocks := keyLocks }
    rw [hfrom] at hpass
    refine ⟨hok hfrom, _, _, _, runPass_next_iff.mpr ⟨s', hpass, rfl, rfl⟩, ?_⟩
    have hperm := (traverseExecutive_pass (J := fun _ _ => True) keyLockCallback_skip
      (fun hs _ hcall => ⟨(keyLockCallback_goes hs hcall).1, (keyLockCallback_goes hs hcall).2,
        trivial⟩) hd.keyed hd.nodup hmarked trivial hpass).2
    intro n hn
    obtain ⟨k, hk, hsame⟩ := List.mem_map.mp
      (hperm.mem_iff.mp (List.mem_map.mpr ⟨n, hn, rfl⟩))
    obtain ⟨k, -, rfl⟩ := List.mem_map.mp hk
    rw [← hsame]
    rfl

/-- The deadlock pass over states without marks ends and leaves none. -/
theorem deadLockPass_unmarked {nodes : List Node} (keyLocks : GraphKeyLocks)
    (hnodes : ∀ n ∈ nodes, n.2.skip = false ∧ n.2.message.isSome = true) :
    ∃ states' keyLocks' victims, runPass deadLockCallback nodes keyLocks
      = .next states' keyLocks' victims ∧ Unmarked states' := by
  rcases runPass_deadLock keyLocks hnodes with
    ⟨-, heq⟩ | ⟨before, n, after, hsplit, -, -, heq⟩
  · exact ⟨_, _, _, heq, fun n hn => (hnodes n hn).1⟩
  · refine ⟨_, _, _, heq, fun k hk => ?_⟩
    rcases List.mem_append.mp hk with hk | hk
    · exact (hnodes k (by simp [hsplit, hk])).1
    · rcases List.mem_cons.mp hk with rfl | hk
      · exact (hnodes n (by simp [hsplit])).1
      · exact (hnodes k (by simp [hsplit, hk])).1

/-- A good reply brings a message. -/
theorem message_applyReplies {rs : List (ContextID × Reply)}
    (hgood : ∀ p ∈ rs, p.2.failed = false) {n : Node}
    (hn : n.2.message ≠ none ∨ n.2.contextID ∈ rs.map Prod.fst) :
    (applyReplies rs n).2.message ≠ none := by
  induction rs using List.reverseRecOn with
  | nil =>
      rcases hn with hn | hn
      · exact hn
      · cases hn
  | append_singleton rs p ih =>
      have hlast := hgood p (by simp)
      rw [applyReplies_snoc]
      have hctx : (applyReplies rs n).2.contextID = n.2.contextID :=
        (applyReplies_frame rs n).2.contextID
      unfold Machine.storeAt
      split_ifs with hp
      · rcases hr : p.2 with e | _ | m
        · rw [hr] at hlast
          cases hlast
        · rw [hr] at hlast
          cases hlast
        · simp [storeReply]
      · apply ih fun q hq => hgood q (List.mem_append_left _ hq)
        refine hn.imp id fun hmem => ?_
        rw [List.map_append, List.mem_append] at hmem
        refine hmem.resolve_right fun hsame => hp ?_
        rw [hctx]
        simpa using hsame

/-! ### Whole rounds -/

/-- How a batch without failed replies ends, unless it throws: no mark is left; if
something was sent, the lock pass handles what the traversal visited, did not skip and did
not erase; else the deadlock pass finds no mark. -/
theorem round_marks (hd : DistinctContexts states) (hunmarked : Unmarked states)
    (hsend : sendAll env states ctx = .ok (log, c)) (hans : Answers executors history log rs)
    (herror : log.status.error = 0) (hgood : ∀ p ∈ rs, p.2.failed = false)
    (hthrow : ∀ e, roundEnd log c rs ≠ .fault (.exception e)) :
    (∃ states' keyLocks victims, roundEnd log c rs = .next states' keyLocks victims ∧
      Unmarked states') ∧
    if log.status.total = 0 ∧ c.visited ≠ [] then Unmarked c.visited
    else handled (lockVisits (c.visited.map (applyReplies rs)) log.ctx.keyLocks)
      = ((sendVisits env states ctx).filterMap Visit.kept).map (applyReplies rs) := by
  have hreach := sendReach_of_sendAll hsend
  have hshape := hreach.shape hd.keyed hd.nodup
  obtain ⟨past, hpast, hmarks⟩ := (hreach.sendMarks hunmarked).visits
  obtain ⟨hmarked, hmessages⟩ := hmarks herror
  have hall : sendVisits env states ctx = past := by
    rw [hpast]
    exact List.append_nil past
  have hnofail : (log.seen rs true).status.error = 0 := by
    have hzero : rs.countP (fun p => p.2.failed) = 0 :=
      List.countP_eq_zero.mpr fun p hp => by simp [hgood p hp]
    simp only [SendLog.seen, herror, hzero]
  have hempty : c.visited.map (applyReplies rs) = [] ↔ c.visited = [] := List.map_eq_nil_iff
  unfold roundEnd endBatch at hthrow ⊢
  simp only [hnofail, lt_irrefl, if_false, ne_eq, hempty] at hthrow ⊢
  rw [hall]
  by_cases hidle : c.visited ≠ [] ∧ log.status.total = 0
  · -- nothing was sent, so nobody was skipped and everybody has the message it waits with
    have hnone := hshape.dispatched_nil hidle.2
    obtain ⟨-, hbound, hwait⟩ := hreach.quiet hnone herror
    obtain ⟨-, -, hplain⟩ := hmarked.unmarked hbound
    have hnodes : ∀ n ∈ c.visited, n.2.skip = false ∧ n.2.message.isSome = true := by
      intro n hn
      obtain ⟨message, hmsg, -⟩ := hwait n hn
      exact ⟨hplain n hn, by simp [hmsg]⟩
    have hcond : ¬ c.visited = [] ∧ (log.seen rs true).status.total = 0 := hidle
    rw [if_pos hcond, if_pos ⟨hidle.2, hidle.1⟩, hans.nil hnone, map_applyReplies_nil]
    exact ⟨deadLockPass_unmarked log.ctx.keyLocks hnodes, hplain⟩
  · have hcond : ¬ (¬ c.visited = [] ∧ (log.seen rs true).status.total = 0) := hidle
    rw [if_neg hcond] at hthrow ⊢
    rw [if_neg fun h => hidle ⟨h.2, h.1⟩]
    have hmap := hmarked.map (f := applyReplies rs) (fun n => (applyReplies_frame rs n).1)
      fun n => (applyReplies_frame rs n).2.skip
    obtain ⟨hhandled, hnext⟩ := lockPass_handles (hshape.replied hd.nodup rs) hmap (fun k hk => by
      obtain ⟨n, hn, rfl⟩ := List.mem_map.mp hk
      exact message_applyReplies hgood ((hmessages n hn).imp id hans.perm.mem_iff.mpr)) hthrow
    exact ⟨hnext, hhandled⟩

theorem Reaches.unmarked (hd : DistinctContexts states₀) (hunmarked : Unmarked states₀)
    (h : Reaches env executors states₀ ctx₀ states ctx history) : Unmarked states := by
  induction h with
  | start => exact hunmarked
  | @next states states' ctx history log c rs keyLocks victims hreach _ hsend hans hend ih =>
      have herror : log.status.error = 0 ∧ ∀ p ∈ rs, p.2.failed = false := by
        rcases roundEnd_cases log c rs with ⟨e, herr⟩ | ⟨hgood, -⟩
        · rw [herr] at hend
          cases hend
        · have hzero := (endBatch_next hend).1
          simp only [SendLog.seen] at hzero
          exact ⟨by omega, hgood⟩
      obtain ⟨⟨states₁, keyLocks₁, victims₁, hnext, hclean⟩, -⟩ := round_marks (hreach.distinct hd)
        ih hsend hans herror.1 herror.2 fun e heq => by rw [hend] at heq; cases heq
      rw [hend] at hnext
      cases hnext
      exact hclean

/-! ### Runs -/

section Runs

variable {m m' k : Machine}

/-- The machine `m` is in the batch that began on `states` with `ctx`. -/
structure InBatch (env : BlockEnv) (staticCall : Bool) (executors : Executors)
    (states₀ : List Node) (ctx₀ : SendContext) (states : List Node) (ctx : SendContext)
    (m : Machine) : Prop where
  reaches : Reaches env executors states₀ ctx₀ states ctx m.history
  first : states = [] → m.history = []
  began : Machine.Steps env staticCall executors (Machine.startBatch states₀ ctx₀ [])
    (Machine.startBatch states ctx m.history)
  since : Machine.Steps env staticCall executors (Machine.startBatch states ctx m.history) m
  mid : Mid env executors states ctx m

/-- A step within the batch. -/
theorem InBatch.step (h : InBatch env staticCall executors states₀ ctx₀ states ctx m)
    (hstep : Machine.Step env staticCall executors m m') (hhistory : m'.history = m.history)
    (hmid : Mid env executors states ctx m') :
    InBatch env staticCall executors states₀ ctx₀ states ctx m' := by
  refine ⟨hhistory ▸ h.reaches, fun hnil => hhistory ▸ h.first hnil, hhistory ▸ h.began, ?_, hmid⟩
  rw [hhistory]
  exact h.since.tail hstep

/-- A check stays in the batch or begins the next one. -/
theorem InBatch.check (hd : DistinctContexts states₀)
    (h : InBatch env staticCall executors states₀ ctx₀ states ctx m)
    (hstep : Machine.Step env staticCall executors m (k.checkBatch staticCall))
    (hhistory : k.history = m.history) (hmid : Mid env executors states ctx k)
    (hphase : (k.checkBatch staticCall).phase = .batching) :
    ∃ states' ctx', InBatch env staticCall executors states₀ ctx₀ states' ctx'
      (k.checkBatch staticCall) := by
  have hreaches : Reaches env executors states₀ ctx₀ states ctx k.history := hhistory ▸ h.reaches
  have hfirst : states = [] → k.history = [] := fun hnil => hhistory ▸ h.first hnil
  unfold Machine.checkBatch at hphase hstep ⊢
  split_ifs at hphase hstep ⊢ with hcond
  · obtain ⟨log, c, hsend, hans, hend, -, b, hlog⟩ :=
      hmid.complete (hreaches.distinct hd) hcond.1 hcond.2.1
    rw [hend] at hphase hstep ⊢
    rcases hround : roundEnd log c k.replied with e | f | ⟨states', keyLocks, victims⟩
    · rw [hround] at hphase
      cases hphase
    · rw [hround] at hphase
      cases hphase
    · rw [hround] at hphase hstep
      simp only [Machine.afterBatch] at hphase hstep ⊢
      split_ifs at hphase hstep ⊢ with hempty
      · unfold Machine.finish at hphase
        split_ifs at hphase
      · have hnext := hreaches.next hfirst hsend hans hround
        have hctx : k.log.ctx = log.ctx := by rw [hlog]; rfl
        have hdisp : k.log.dispatched = log.dispatched := by rw [hlog]; rfl
        have herased : k.log.erased = log.erased := by rw [hlog]; rfl
        rw [hctx, hdisp, herased] at hstep ⊢
        refine ⟨states', _, hnext, fun hnil => absurd (by simp [hnil]) hempty, ?_, .refl,
          Mid.start _ _ _⟩
        exact (h.began.trans h.since).tail hstep
  · exact ⟨states, ctx, h.step hstep hhistory hmid⟩

/-- Every moment of a batch lies behind its beginning. -/
theorem Steps.inBatch (hd : DistinctContexts states₀)
    (h : Machine.Steps env staticCall executors (Machine.startBatch states₀ ctx₀ []) m) :
    m.phase = .batching →
      ∃ states ctx, InBatch env staticCall executors states₀ ctx₀ states ctx m := by
  induction h with
  | refl => exact fun _ => ⟨states₀, ctx₀, .start, fun _ => rfl, .refl, .refl, Mid.start _ _ _⟩
  | @tail m m' hrun hstep ih =>
      intro hphase'
      cases hstep with
      | @visit n rest hphase htodo =>
          obtain ⟨states, ctx, hin⟩ := ih hphase
          have hstep : Machine.Step env staticCall executors m (m.visit env n rest) :=
            .visit hphase htodo
          rcases hin.mid.visit (hin.reaches.distinct hd) htodo with
            ⟨f, log, -, -, -, heq⟩ | ⟨log, c, todo, heq, hmid⟩
          · rw [heq] at hphase'
            cases hphase'
          · rw [heq] at hstep ⊢
            exact ⟨states, ctx, hin.step hstep rfl hmid⟩
      | allSended hphase htodo =>
          obtain ⟨states, ctx, hin⟩ := ih hphase
          exact ⟨states, ctx, hin.step (.allSended hphase htodo) rfl (hin.mid.setAllSended htodo)⟩
      | check hphase htodo hall =>
          obtain ⟨states, ctx, hin⟩ := ih hphase
          exact hin.check hd (.check hphase htodo hall) rfl hin.mid hphase'
      | @reply d r hphase hmem hnew hr =>
          obtain ⟨states, ctx, hin⟩ := ih hphase
          have hmid := hin.mid.receive (hin.reaches.distinct hd) hmem hnew hr
          exact hin.check hd (.reply hphase hmem hnew hr) rfl hmid hphase'
      | @hash answer hphase hanswer =>
          cases answer with
          | error e => cases hphase'
          | ok hash => cases hphase'

/-- The marks in the middle of a batch and at its end. -/
theorem InBatch.marks (hd : DistinctContexts states₀) (hunmarked : Unmarked states₀)
    (h : InBatch env staticCall executors states₀ ctx₀ states ctx m) :
    Unmarked states ∧ Unmarked m.todo ∧
    (∃ past, sendVisits env states ctx
      = past ++ traverseVisits (sendCallback env) m.todo m.log m.cursor) ∧
    ∀ k, m.Checks executors k → k.MakesPass →
      (∀ e, endBatch k.log.status k.states k.log.ctx.keyLocks ≠ .fault (.exception e)) →
      (∃ states' keyLocks victims, endBatch k.log.status k.states k.log.ctx.keyLocks
        = .next states' keyLocks victims ∧ Unmarked states') ∧
      if k.log.status.total = 0 ∧ k.states ≠ [] then Unmarked k.states
      else handled (lockVisits k.states k.log.ctx.keyLocks)
        = ((sendVisits env states ctx).filterMap Visit.kept).map (applyReplies k.replied) := by
  have hdist := h.reaches.distinct hd
  have hclean := h.reaches.unmarked hd hunmarked
  obtain ⟨log, visited, b, hreach, -, hlog, -⟩ := h.mid.path
  have hmarks := hreach.sendMarks hclean
  refine ⟨hclean, hmarks.ahead, ?_, fun k hk hpass hthrow => ?_⟩
  · obtain ⟨past, hpast, -⟩ := hmarks.visits
    have hsame : m.cursor.bound = { m.cursor with visited := visited }.bound := rfl
    refine ⟨past, ?_⟩
    rw [hlog, traverseVisits_seen m.replied b hsame]
    exact hpast
  · have hmid := h.mid.checks hdist hk
    obtain ⟨log, c, hsend, hans, hend, hstates, b, hlog⟩ :=
      hmid.complete hdist hpass.allSended hpass.received
    have hnoerror : log.status.error = 0 := by
      have herror := hpass.error
      rw [hlog] at herror
      simp only [SendLog.seen] at herror
      omega
    rw [hend] at hthrow ⊢
    obtain ⟨hnext, hmarked⟩ := round_marks hdist hclean hsend hans hnoerror
      (hmid.good hpass.error) hthrow
    refine ⟨hnext, ?_⟩
    have htotal : k.log.status.total = log.status.total := by rw [hlog]; rfl
    have hlocks : k.log.ctx.keyLocks = log.ctx.keyLocks := by rw [hlog]; rfl
    rw [htotal, hlocks, hstates]
    simp only [ne_eq, List.map_eq_nil_iff]
    split_ifs at hmarked ⊢ with hidle
    · intro p hp
      obtain ⟨n, hn, rfl⟩ := List.mem_map.mp hp
      rw [(applyReplies_frame k.replied n).2.skip]
      exact hmarked n hn
    · exact hmarked

end Runs

/-! ### Blocks -/

section Blocks

variable {env : ExecuteEnv} {block : Block} {x x' : Execution} {m : Machine}

theorem unmarked_blockStates (env : ExecuteEnv) (block : Block) :
    Unmarked (blockStates env block).1 := fun n hn => (blockStates_fresh env block n hn).skip

theorem DagMachine.unmarked_send {d : DagMachine} (h : Unmarked d.states) (contract : String)
    (rest : List String) : Unmarked (d.send contract rest).states := by
  intro k hk
  obtain ⟨n, hn, rfl⟩ := List.mem_map.mp hk
  unfold DagMachine.pushFrame
  split_ifs
  · exact h n hn
  · exact h n hn

theorem DagMachine.unmarked_receive {d : DagMachine} (h : Unmarked d.states) (contract : String)
    (error : Option Error) (responses : List (Option ExecutionMessage)) :
    Unmarked (d.receive contract error responses).states := by
  intro k hk
  obtain ⟨n, hn, rfl | ⟨-, response, rfl⟩⟩ := DagMachine.mem_receive hk
  · exact h k hn
  · exact h n hn

/-- What is known of the marks along `asyncExecute`: `DAGExecute` has none, and
`DMTExecute` was started without any, at a moment of the same run. -/
structure StartsUnmarked (env : ExecuteEnv) (block : Block) (executors : Executors)
    (x : Execution) : Prop where
  dag : ∀ d, x.dag = some d → Unmarked d.states
  runs : ∀ m ∈ x.dmts, ∃ states, states.map nodeTag = (blockStates env block).1.map nodeTag ∧
    Unmarked states ∧
    Machine.Steps (env.blockEnv block) env.staticCall executors
      (Machine.startBatch states (initialContext block) []) m ∧
    Execution.Steps env block executors (Execution.start env block)
      { x with dmts := [Machine.startBatch states (initialContext block) []] }

/-- `DMTExecute` is started on states without marks. -/
theorem StartsUnmarked.startDMT {states : List Node}
    (hrun : Execution.Steps env block executors (Execution.start env block)
      (x.startDMT block states))
    (hdag : ∀ d, x.dag = some d → Unmarked d.states) (hnone : x.dmts = [])
    (htags : states.map nodeTag = (blockStates env block).1.map nodeTag)
    (hunmarked : Unmarked states) :
    StartsUnmarked env block executors (x.startDMT block states) := by
  have hdmts : (x.startDMT block states).dmts
      = [Machine.startBatch states (initialContext block) []] := by
    rw [Execution.startDMT, hnone]
    rfl
  refine ⟨hdag, fun m hm => ?_⟩
  rw [hdmts, List.mem_singleton] at hm
  subst hm
  refine ⟨states, htags, hunmarked, .refl, ?_⟩
  rw [← hdmts]
  exact hrun

theorem startsUnmarked_start (env : ExecuteEnv) (block : Block) (executors : Executors) :
    StartsUnmarked env block executors (Execution.start env block) := by
  rcases hstatic : env.staticCall with _ | _
  · have heq : Execution.start env block = { nextBlock := true } := by
      simp [Execution.start, hstatic]
    rw [heq]
    exact ⟨by simp, by simp⟩
  · have heq : Execution.start env block
        = ({ nextBlock := false } : Execution).startDMT block (blockStates env block).1 := by
      simp [Execution.start, hstatic]
    have hrun : Execution.Steps env block executors (Execution.start env block)
        (({ nextBlock := false } : Execution).startDMT block (blockStates env block).1) := by
      rw [← heq]
      exact .refl
    rw [heq]
    exact .startDMT hrun (by simp) rfl rfl (unmarked_blockStates env block)

theorem StartsUnmarked.step (h : StartsUnmarked env block executors x)
    (hx : Execution.Steps env block executors (Execution.start env block) x)
    (hstep : Execution.Step env block executors x x') :
    StartsUnmarked env block executors x' := by
  have hinv := Execution.Steps.inv hx
  have hrun : Execution.Steps env block executors (Execution.start env block) x' :=
    hx.tail hstep
  cases hstep with
  | @nextBlock error hnext =>
      obtain ⟨hnone, hnodag⟩ := hinv.fresh hnext
      have hclean := unmarked_blockStates env block
      have hstarted : ∀ d, some (DagMachine.start (blockStates env block).1) = some d →
          Unmarked d.states := by
        intro d hd
        rw [← Option.some.inj hd]
        exact hclean
      unfold Execution.afterNextBlock at hrun ⊢
      dsimp only at hrun ⊢
      split_ifs at hrun ⊢
      · exact ⟨h.dag, by simp [hnone]⟩
      · exact .startDMT hrun hstarted hnone rfl hclean
      · exact ⟨hstarted, by simp [hnone]⟩
      · exact .startDMT hrun (by simp [hnodag]) hnone rfl hclean
  | @dagSend d contract rest hd htodo =>
      have hnone := hinv.dmts_nil hd (by simp [htodo])
      refine ⟨fun d' hd' => ?_, by simp [hnone]⟩
      rw [← Option.some.inj hd']
      exact DagMachine.unmarked_send (h.dag d hd) contract rest
  | @dagReply d contract error responses hd hmem =>
      have hnone := hinv.dmts_nil hd (List.ne_nil_of_mem (List.mem_append_right _ hmem))
      have hreceived := DagMachine.unmarked_receive (h.dag d hd) contract error responses
      have hdag : ∀ d', some (d.receive contract error responses) = some d' →
          Unmarked d'.states := by
        intro d' hd'
        rw [← Option.some.inj hd']
        exact hreceived
      have htags := ((hinv.dag d hd).2.receive hmem error responses).tags
      rcases hans : (d.receive contract error responses).answer with _ | (e | u)
      · exact ⟨hdag, by simp [Execution.afterDAG, hnone]⟩
      · exact ⟨hdag, by simp [Execution.afterDAG, hnone]⟩
      · rw [hans] at hrun
        exact StartsUnmarked.startDMT (x := { x with
          dag := some (d.receive contract error responses) }) hrun hdag hnone htags hreceived
  | @dmt before after k k' hdmts hk =>
      obtain ⟨rfl, rfl⟩ := hinv.only hdmts
      obtain ⟨states, htags, hclean, hsteps, hfrom⟩ := h.runs k (by simp [hdmts])
      refine ⟨h.dag, fun m hm => ?_⟩
      obtain rfl : m = k' := by simpa using hm
      exact ⟨states, htags, hclean, hsteps.tail hk, hfrom⟩

theorem Execution.Steps.startsUnmarked
    (h : Execution.Steps env block executors (Execution.start env block) x) :
    StartsUnmarked env block executors x := by
  induction h with
  | refl => exact startsUnmarked_start env block executors
  | tail hx hstep ih => exact ih.step hx hstep

/-- **Skip marks are consistent.**  At every moment of `DMTExecute` in a run of a block, with
or without `DAGExecute` before it and whatever the executors replied: the batch began at an
earlier moment of the run, without marks, and the nodes ahead of the traversal carry none;
the visits the traversal still makes are the last ones of those from the beginning of the
batch.  When a check, of the sender or of a reply handler, finds the batch complete and
without error and `batchAcquireKeyLock` does not throw, the next batch starts without marks;
the lock pass handles exactly the nodes, with their replies, that the traversal visited, did
not skip and did not erase; and where the deadlock pass runs instead, there is no mark at
all. -/
theorem skip_marks_consistent
    (h : Execution.Steps env block executors (Execution.start env block) x) (hm : m ∈ x.dmts)
    (hphase : m.phase = .batching) :
    Unmarked m.todo ∧ ∃ states ctx, Unmarked states ∧
    Execution.Steps env block executors (Execution.start env block)
      { x with dmts := [Machine.startBatch states ctx m.history] } ∧
    Machine.Steps (env.blockEnv block) env.staticCall executors
      (Machine.startBatch states ctx m.history) m ∧
    (∃ past, sendVisits (env.blockEnv block) states ctx
      = past ++ traverseVisits (sendCallback (env.blockEnv block)) m.todo m.log m.cursor) ∧
    ∀ k, m.Checks executors k → k.MakesPass →
      (∀ e, endBatch k.log.status k.states k.log.ctx.keyLocks ≠ .fault (.exception e)) →
      (∃ states' keyLocks victims, endBatch k.log.status k.states k.log.ctx.keyLocks
        = .next states' keyLocks victims ∧ Unmarked states') ∧
      if k.log.status.total = 0 ∧ k.states ≠ [] then Unmarked k.states
      else handled (lockVisits k.states k.log.ctx.keyLocks)
        = ((sendVisits (env.blockEnv block) states ctx).filterMap Visit.kept).map
          (applyReplies k.replied) := by
  obtain ⟨states₀, htags, hclean, hsteps, hfrom⟩ := (Execution.Steps.startsUnmarked h).runs m hm
  have hd := distinct_of_tags (distinct_blockStates env block) htags
  obtain ⟨states, ctx, hin⟩ := Steps.inBatch hd hsteps hphase
  obtain ⟨hstates, htodo, hvisits, hcomplete⟩ := hin.marks hd hclean
  exact ⟨htodo, states, ctx, hstates, hfrom.trans (Execution.steps_dmt rfl hin.began), hin.since,
    hvisits, hcomplete⟩

/-- Of two calls of one contract the second is skipped; the first has finished and the
traversal is over. -/
def markedRun : Machine :=
  plainRun (callsTo ["a", "a"]) finishing [.visit, .visit, .reply 0, .allSended]

/-- The mark of the second call is gone when the next batch starts. -/
theorem skip_marks_consistent_two_calls : (∃ n ∈ markedRun.states, n.2.skip = true) ∧
    ∃ states' keyLocks victims, endBatch markedRun.log.status markedRun.states
      markedRun.log.ctx.keyLocks = .next states' keyLocks victims ∧ Unmarked states' := by
  have hwith : (blockStates plainEnv (callsTo ["a", "a"])).2 = false := by decide +kernel
  have hrun : Execution.Steps plainEnv (callsTo ["a", "a"]) (.ofFun finishing plainRoot)
      (Execution.start plainEnv (callsTo ["a", "a"]))
      { nextBlock := false, dmts := [markedRun] } :=
    (Execution.steps_dmtStart rfl hwith).trans (Execution.steps_dmt rfl (plainRun_steps _ finishing _))
  have hends : (endBatch markedRun.log.status markedRun.states
      markedRun.log.ctx.keyLocks).callback = some none := by decide +kernel
  obtain ⟨-, states, ctx, -, -, -, -, hcomplete⟩ :=
    skip_marks_consistent hrun (List.mem_singleton.mpr rfl) (by decide +kernel)
  refine ⟨by decide +kernel, (hcomplete markedRun (.sender rfl (by decide +kernel))
    ⟨by decide +kernel, by decide +kernel, by decide +kernel⟩ fun e heq => ?_).1⟩
  rw [heq] at hends
  cases hends

end Blocks

end BcosScheduler
