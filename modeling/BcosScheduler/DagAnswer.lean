/-
BcosScheduler/DagAnswer.lean

When `DAGExecute` calls back.

The groups are sent one after the other, their replies come in any order, and
each reply handler lowers the counter by the number of messages it got.  So the
callback is called whenever the replies so far have as many messages as were
sent in all.  This is once and after the last reply, in every order, iff the
sizes of the replies add up to that number and no reply is empty
(`dagAnswersOnce_iff`); a group that fails with an empty list leaves
`DAGExecute` without an answer.
-/
import BcosScheduler.Dag
import Mathlib.Algebra.Order.BigOperators.Group.List

namespace BcosScheduler

/-- What the executor of a group hands to the callback of
`dagExecuteTransactions`. -/
structure GroupReply where
  error : Option Error := none
  responses : List (Option ExecutionMessage) := []
  deriving DecidableEq

/-- `DAGExecute` with what it has handed to its callback. -/
structure DagRun where
  machine : DagMachine
  answers : List (Except Error Unit) := []

namespace DagRun

/-- The handler of the reply to a group. -/
def reply (x : DagRun) (contract : String) (r : GroupReply) : DagRun where
  machine := x.machine.receive contract r.error r.responses
  answers := x.answers ++ (x.machine.receive contract r.error r.responses).answer.toList

/-- One step of `DAGExecute` when the executors reply `replies`. -/
inductive Step (replies : String → GroupReply) : DagRun → DagRun → Prop
  | send {x : DagRun} {contract : String} {rest : List String} :
      x.machine.todo = contract :: rest →
      Step replies x { x with machine := x.machine.send contract rest }
  | reply {x : DagRun} {contract : String} : contract ∈ x.machine.waiting →
      Step replies x (x.reply contract (replies contract))

/-- Any number of steps from the beginning. -/
def Steps (replies : String → GroupReply) (states : List Node) : DagRun → Prop :=
  Relation.ReflTransGen (Step replies) ⟨DagMachine.start states, []⟩

/-- Every group was sent and has replied. -/
def Done (x : DagRun) : Prop := x.machine.todo = [] ∧ x.machine.waiting = []

end DagRun

/-- The group failed: with an error, or with a list of another size. -/
def GroupReply.fails (states : List Node) (contract : String) (r : GroupReply) : Prop :=
  r.error.isSome = true ∨ r.responses.length ≠ groupSize states contract

/-- The messages of the states of a group, in the order they were sent in. -/
def groupMessages (states : List Node) (contract : String) : List (Option ExecutionMessage) :=
  (states.filter (inGroup contract)).map fun n => n.2.message

/-- `DAGExecute` answers once, after every group has replied, with an error iff
a group failed, and on success with every reply at its place. -/
structure DagAnswersOnce (states : List Node) (replies : String → GroupReply) : Prop where
  notEarly : ∀ x, DagRun.Steps replies states x → ¬ x.Done → x.answers = []
  once : ∀ x, DagRun.Steps replies states x → x.Done → ∃ answer, x.answers = [answer] ∧
    ((∃ e, answer = .error e) ↔
      ∃ contract ∈ dagContracts states, (replies contract).fails states contract) ∧
    (answer = .ok () → ∀ contract ∈ dagContracts states,
      groupMessages x.machine.states contract = (replies contract).responses)

variable {states nodes : List Node} {contract other : String} {replies : String → GroupReply}

/-! ### The messages of a group -/

theorem inGroup_of_ne (hne : other ≠ contract) {n : Node} (h : inGroup other n = true) :
    inGroup contract n = false := by
  by_contra hthis
  exact hne (inGroup_unique h (by simpa using hthis))

/-- Sending a group leaves the messages of the others. -/
theorem groupMessages_pushFrame (hne : other ≠ contract) (nodes : List Node) :
    groupMessages (nodes.map (DagMachine.pushFrame contract)) other = groupMessages nodes other := by
  induction nodes with
  | nil => rfl
  | cons n rest ih =>
      unfold groupMessages at ih ⊢
      rw [List.map_cons, List.filter_cons, List.filter_cons,
        inGroup_of_tag (nodeTag_pushFrame contract n)]
      split_ifs with hn
      · rw [List.map_cons, List.map_cons, ih, pushFrame_of_not (inGroup_of_ne hne hn)]
      · exact ih

/-- A node with another message is in the same groups. -/
theorem inGroup_message (contract : String) (n : Node) (message : Option ExecutionMessage) :
    inGroup contract (n.1, { n.2 with message := message }) = inGroup contract n := rfl

theorem groupMessages_storeResponses_of_ne (hne : other ≠ contract) (nodes : List Node) :
    ∀ responses, groupMessages (DagMachine.storeResponses contract nodes responses) other
      = groupMessages nodes other := by
  induction nodes with
  | nil => exact fun _ => rfl
  | cons n rest ih =>
      intro responses
      unfold groupMessages at ih ⊢
      unfold DagMachine.storeResponses
      split_ifs with hn
      · have hnot : inGroup other n = false := inGroup_of_ne hne.symm hn
        rcases responses with _ | ⟨response, responses⟩
        · rfl
        · simp only [List.filter_cons, inGroup_message, hnot]
          exact ih responses
      · simp only [List.filter_cons]
        split_ifs
        · rw [List.map_cons, List.map_cons, ih]
        · exact ih responses

/-- A reply of the right size is the messages of its group. -/
theorem groupMessages_storeResponses (contract : String) (nodes : List Node) :
    ∀ responses, groupSize nodes contract = responses.length →
      groupMessages (DagMachine.storeResponses contract nodes responses) contract = responses := by
  induction nodes with
  | nil =>
      intro responses hlen
      exact (List.eq_nil_of_length_eq_zero hlen.symm).symm
  | cons n rest ih =>
      intro responses hlen
      unfold groupMessages groupSize at *
      unfold DagMachine.storeResponses
      split_ifs with hn
      · rw [List.filter_cons_of_pos hn, List.length_cons] at hlen
        rcases responses with _ | ⟨response, responses⟩
        · cases hlen
        · dsimp only
          rw [List.filter_cons_of_pos (by rw [inGroup_message]; exact hn), List.map_cons,
            ih responses (Nat.succ.inj hlen)]
      · rw [List.filter_cons_of_neg hn] at hlen ⊢
        exact ih responses hlen

/-! ### The invariant -/

/-- The number of messages `DAGExecute` sends. -/
def dagCount (states : List Node) : Nat := (states.filter fun n => n.2.enableDAG).length

/-- The number of messages in the replies of some groups. -/
def replyCount (replies : String → GroupReply) (contracts : List String) : Nat :=
  (contracts.map fun contract => (replies contract).responses.length).sum

theorem replyCount_append (a b : List String) :
    replyCount replies (a ++ b) = replyCount replies a + replyCount replies b := by
  simp [replyCount]

theorem replyCount_perm {a b : List String} (h : a.Perm b) :
    replyCount replies a = replyCount replies b :=
  (h.map _).sum_eq

namespace DagRun

variable {x : DagRun} {replied : List String}

/-- The groups without reply. -/
def unreplied (x : DagRun) : List String := x.machine.todo ++ x.machine.waiting

/-- `DAGExecute` when the groups in `replied` have replied. -/
structure Inv (states : List Node) (replies : String → GroupReply) (replied : List String)
    (x : DagRun) : Prop where
  groups : (x.unreplied ++ replied).Perm (dagContracts states)
  tags : x.machine.states.map nodeTag = states.map nodeTag
  count : x.machine.totalCount = dagCount states - replyCount replies replied
  failed : 0 < x.machine.failed ↔ ∃ contract ∈ replied, (replies contract).fails states contract
  stored : ∀ contract ∈ replied, ¬ (replies contract).fails states contract →
    groupMessages x.machine.states contract = (replies contract).responses
  /-- A reply that brought the counter to zero was answered. -/
  silent : x.answers = [] → replied = [] ∨ x.machine.totalCount ≠ 0

theorem inv_start (states : List Node) (replies : String → GroupReply) :
    Inv states replies [] ⟨DagMachine.start states, []⟩ where
  groups := by simp [unreplied, DagMachine.start]
  tags := rfl
  count := by simp [DagMachine.start, replyCount, dagCount]
  failed := by simp [DagMachine.start]
  stored := by simp
  silent := fun _ => Or.inl rfl

theorem Inv.nodup (h : Inv states replies replied x) : (x.unreplied ++ replied).Nodup :=
  h.groups.nodup_iff.mpr (dagContracts_nodup states)

/-- A group that has replied is not open. -/
theorem Inv.ne_of_replied (h : Inv states replies replied x) (hopen : contract ∈ x.unreplied)
    (hmem : other ∈ replied) : other ≠ contract := by
  rintro rfl
  exact (List.nodup_append.mp h.nodup).2.2 _ hopen _ hmem rfl

theorem Inv.send (h : Inv states replies replied x) {rest : List String}
    (htodo : x.machine.todo = contract :: rest) :
    Inv states replies replied { x with machine := x.machine.send contract rest } := by
  have hopen : contract ∈ x.unreplied := by simp [unreplied, htodo]
  refine ⟨List.Perm.trans (List.Perm.append_right _ ?_) h.groups, ?_, h.count, h.failed,
    fun c hc hok => ?_, h.silent⟩
  · exact DagMachine.send_groups htodo
  · rw [← h.tags]
    simp only [DagMachine.send, List.map_map]
    exact List.map_congr_left fun n _ => nodeTag_pushFrame contract n
  · rw [← h.stored c hc hok]
    exact groupMessages_pushFrame (h.ne_of_replied hopen hc) _

/-- What a reply handler does to the machine. -/
theorem receive_cases (h : Inv states replies replied x) (contract : String) (r : GroupReply) :
    (r.fails states contract ∧ x.machine.receive contract r.error r.responses
        = { x.machine with waiting := x.machine.waiting.erase contract
                           totalCount := x.machine.totalCount - r.responses.length
                           failed := x.machine.failed + 1 }) ∨
    (¬ r.fails states contract ∧ groupSize x.machine.states contract = r.responses.length ∧
      x.machine.receive contract r.error r.responses
        = { x.machine with waiting := x.machine.waiting.erase contract
                           totalCount := x.machine.totalCount - r.responses.length
                           states := DagMachine.storeResponses contract x.machine.states
                             r.responses }) := by
  have hsize : (x.machine.states.filter (inGroup contract)).length = groupSize states contract :=
    group_length_of_tags contract h.tags
  unfold DagMachine.receive GroupReply.fails
  dsimp only
  split_ifs with herr hlen
  · exact Or.inl ⟨Or.inl herr, rfl⟩
  · exact Or.inl ⟨Or.inr (fun heq => hlen (hsize.trans heq.symm)), rfl⟩
  · refine Or.inr ⟨?_, not_ne_iff.mp hlen, rfl⟩
    rintro (herr' | hlen')
    · exact herr herr'
    · exact hlen' ((not_ne_iff.mp hlen).symm.trans hsize)

theorem receive_totalCount (d : DagMachine) (contract : String) (error : Option Error)
    (responses : List (Option ExecutionMessage)) :
    (d.receive contract error responses).totalCount = d.totalCount - responses.length := by
  unfold DagMachine.receive
  dsimp only
  split_ifs <;> rfl

/-- The answer after a reply at zero. -/
theorem answer_eq_none_iff {d : DagMachine} : d.answer = none ↔ d.totalCount ≠ 0 := by
  unfold DagMachine.answer
  split_ifs with hzero hfailed
  · simp [hzero]
  · simp [hzero]
  · simp [hzero]

theorem Inv.reply (h : Inv states replies replied x) (hmem : contract ∈ x.machine.waiting) :
    Inv states replies (replied ++ [contract]) (x.reply contract (replies contract)) := by
  have hopen : contract ∈ x.unreplied := List.mem_append_right _ hmem
  obtain ⟨htodo, hwaiting⟩ := x.machine.receive_queues contract (replies contract).error
    (replies contract).responses
  have hgroups : ((x.reply contract (replies contract)).unreplied
      ++ (replied ++ [contract])).Perm (dagContracts states) := by
    refine List.Perm.trans ?_ h.groups
    simp only [unreplied, DagRun.reply, htodo, hwaiting]
    have hback := (List.perm_cons_erase hmem).append_left x.machine.todo
    refine List.Perm.trans ?_ (hback.symm.append_right replied)
    simp only [List.append_assoc, List.cons_append]
    apply List.Perm.append_left
    rw [← List.append_assoc, ← List.singleton_append]
    exact List.perm_append_comm
  have hsilent : (x.reply contract (replies contract)).answers = [] →
      replied ++ [contract] = [] ∨ (x.reply contract (replies contract)).machine.totalCount ≠ 0 := by
    intro hnone
    have hlast := (List.append_eq_nil_iff.mp hnone).2
    exact Or.inr (answer_eq_none_iff.mp (Option.toList_eq_nil_iff.mp hlast))
  have htags : (x.reply contract (replies contract)).machine.states.map nodeTag
      = states.map nodeTag :=
    (x.machine.receive_tags contract _ _).trans h.tags
  have hcount : (x.reply contract (replies contract)).machine.totalCount
      = dagCount states - replyCount replies (replied ++ [contract]) := by
    simp only [DagRun.reply, receive_totalCount, h.count, replyCount_append]
    simp only [replyCount, List.map_cons, List.map_nil, List.sum_cons, List.sum_nil]
    omega
  rcases receive_cases h contract (replies contract) with
    ⟨hfails, heq⟩ | ⟨hok, hsize, heq⟩
  · refine ⟨hgroups, htags, hcount, ?_, fun c hc hok => ?_, hsilent⟩
    · simp only [DagRun.reply, heq]
      exact ⟨fun _ => ⟨contract, by simp, hfails⟩, fun _ => Nat.succ_pos _⟩
    · simp only [DagRun.reply, heq]
      rcases List.mem_append.mp hc with hc | hc
      · exact h.stored c hc hok
      · rw [List.mem_singleton.mp hc] at hok
        exact absurd hfails hok
  · refine ⟨hgroups, htags, hcount, ?_, fun c hc hok' => ?_, hsilent⟩
    · simp only [DagRun.reply, heq, h.failed]
      constructor
      · rintro ⟨c, hc, hfails⟩
        exact ⟨c, List.mem_append_left _ hc, hfails⟩
      · rintro ⟨c, hc, hfails⟩
        rcases List.mem_append.mp hc with hc | hc
        · exact ⟨c, hc, hfails⟩
        · rw [List.mem_singleton.mp hc] at hfails
          exact absurd hfails hok
    · simp only [DagRun.reply, heq]
      rcases List.mem_append.mp hc with hc | hc
      · rw [groupMessages_storeResponses_of_ne (h.ne_of_replied hopen hc)]
        exact h.stored c hc hok'
      · rw [List.mem_singleton.mp hc]
        exact groupMessages_storeResponses contract _ _ hsize

/-- Some groups have replied, in some order. -/
theorem Steps.inv (h : Steps replies states x) : ∃ replied, Inv states replies replied x := by
  induction h with
  | refl => exact ⟨[], inv_start states replies⟩
  | tail _ hstep ih =>
      obtain ⟨replied, hinv⟩ := ih
      cases hstep with
      | send htodo => exact ⟨replied, hinv.send htodo⟩
      | reply hmem => exact ⟨_, hinv.reply hmem⟩

/-! ### One answer in every order -/

theorem done_iff : x.Done ↔ x.unreplied = [] := List.append_eq_nil_iff.symm

theorem Inv.unreplied_count (h : Inv states replies replied x)
    (hsum : replyCount replies (dagContracts states) = dagCount states) :
    x.machine.totalCount = replyCount replies x.unreplied := by
  rw [h.count, ← hsum, ← replyCount_perm h.groups, replyCount_append]
  omega

/-- With replies that add up and are not empty, only the last one is answered. -/
theorem Steps.answers (hsum : replyCount replies (dagContracts states) = dagCount states)
    (hpos : ∀ contract ∈ dagContracts states, (replies contract).responses ≠ [])
    (hdag : dagContracts states ≠ []) (h : Steps replies states x) :
    (¬ x.Done → x.answers = []) ∧ (x.Done → x.answers = x.machine.answer.toList) := by
  induction h with
  | refl =>
      refine ⟨fun _ => rfl, fun hdone => absurd ?_ hdag⟩
      exact hdone.1
  | @tail x x' hrun hstep ih =>
      obtain ⟨replied, hinv⟩ := Steps.inv hrun
      cases hstep with
      | @send contract rest htodo =>
          have hbefore : ¬ x.Done := fun hdone => by
            rw [hdone.1] at htodo
            cases htodo
          refine ⟨fun _ => ih.1 hbefore, fun hdone => absurd hdone.2 ?_⟩
          simp [DagMachine.send]
      | @reply contract hmem =>
          have hbefore : ¬ x.Done := fun hdone => by
            rw [hdone.2] at hmem
            cases hmem
          have hanswers : (x.reply contract (replies contract)).answers
              = (x.reply contract (replies contract)).machine.answer.toList := by
            simp only [DagRun.reply, ih.1 hbefore, List.nil_append]
          refine ⟨fun hopen => ?_, fun _ => hanswers⟩
          -- a group without reply still counts at least one message
          have hinv' := hinv.reply hmem
          obtain ⟨c, hc⟩ := List.exists_mem_of_ne_nil _ (mt done_iff.mpr hopen)
          have hmessages : 0 < (replies c).responses.length := by
            apply List.length_pos_of_ne_nil
            exact hpos c (hinv'.groups.mem_iff.mp (List.mem_append_left _ hc))
          have hle : (replies c).responses.length
              ≤ replyCount replies (x.reply contract (replies contract)).unreplied :=
            List.single_le_sum (by simp) _ (List.mem_map.mpr ⟨c, hc, rfl⟩)
          have hcount := hinv'.unreplied_count hsum
          rw [hanswers, Option.toList_eq_nil_iff, answer_eq_none_iff]
          omega

theorem answersOnce_of_counts (hsum : replyCount replies (dagContracts states) = dagCount states)
    (hpos : ∀ contract ∈ dagContracts states, (replies contract).responses ≠ [])
    (hdag : dagContracts states ≠ []) : DagAnswersOnce states replies where
  notEarly := fun x hrun hopen => (Steps.answers hsum hpos hdag hrun).1 hopen
  once := by
    intro x hrun hdone
    obtain ⟨replied, hinv⟩ := Steps.inv hrun
    have hanswers := (Steps.answers hsum hpos hdag hrun).2 hdone
    have hgroups := hinv.groups
    rw [done_iff.mp hdone, List.nil_append] at hgroups
    have hzero : x.machine.totalCount = 0 := by
      rw [hinv.unreplied_count hsum, done_iff.mp hdone]
      rfl
    have hfailed : 0 < x.machine.failed ↔
        ∃ contract ∈ dagContracts states, (replies contract).fails states contract := by
      rw [hinv.failed]
      exact exists_congr fun c => and_congr_left fun _ => hgroups.mem_iff
    rw [DagMachine.answer, if_pos hzero] at hanswers
    split_ifs at hanswers with hany
    · exact ⟨_, hanswers, ⟨fun _ => hfailed.mp hany, fun _ => ⟨_, rfl⟩⟩, fun hok => by cases hok⟩
    · refine ⟨_, hanswers, ⟨?_, fun hex => absurd (hfailed.mpr hex) hany⟩, fun _ c hc => ?_⟩
      · rintro ⟨e, he⟩
        cases he
      · refine hinv.stored c (hgroups.mem_iff.mpr hc) fun hfails => ?_
        exact hany (hfailed.mpr ⟨c, hc, hfails⟩)

/-! ### Runs in a given order -/

/-- All groups can be sent before the first reply. -/
theorem exists_sent (replies : String → GroupReply) (states : List Node) :
    ∃ x, Steps replies states x ∧ x.machine.todo = [] ∧ Inv states replies [] x := by
  have hsend : ∀ (todo : List String) (x : DagRun), x.machine.todo = todo →
      Steps replies states x → Inv states replies [] x →
      ∃ x', Steps replies states x' ∧ x'.machine.todo = [] ∧ Inv states replies [] x' := by
    intro todo
    induction todo with
    | nil => exact fun x htodo hrun hinv => ⟨x, hrun, htodo, hinv⟩
    | cons contract rest ih =>
        intro x htodo hrun hinv
        exact ih _ rfl (hrun.tail (.send htodo)) (hinv.send htodo)
  exact hsend _ _ rfl Relation.ReflTransGen.refl (inv_start states replies)

/-- Then they can reply in any order. -/
theorem exists_replied (replies : String → GroupReply) (states : List Node)
    (replied : List String) : ∀ rest : List String, (rest ++ replied).Perm (dagContracts states) →
      ∃ x, Steps replies states x ∧ x.machine.todo = [] ∧ Inv states replies replied x := by
  induction replied using List.reverseRecOn with
  | nil => exact fun _ _ => exists_sent replies states
  | append_singleton replied contract ih =>
      intro rest hperm
      have hperm' : (contract :: rest ++ replied).Perm (dagContracts states) := by
        refine List.Perm.trans ?_ hperm
        rw [← List.append_assoc]
        exact (List.perm_append_singleton _ _).symm
      obtain ⟨x, hrun, htodo, hinv⟩ := ih (contract :: rest) hperm'
      -- the group is neither ahead nor has it replied, so it is waiting
      have hmem : contract ∈ x.machine.waiting := by
        have hopen := (List.perm_append_right_iff replied).mp (hinv.groups.trans hperm'.symm)
        have := hopen.mem_iff.mpr (List.mem_cons_self (a := contract) (l := rest))
        simpa [unreplied, htodo] using this
      refine ⟨_, hrun.tail (.reply hmem), ?_, hinv.reply hmem⟩
      rcases receive_cases hinv contract (replies contract) with
        ⟨-, heq⟩ | ⟨-, -, heq⟩
      · simp only [DagRun.reply, heq]
        exact htodo
      · simp only [DagRun.reply, heq]
        exact htodo

/-- Any group can be the last one to reply. -/
theorem exists_last (replies : String → GroupReply) (hmem : contract ∈ dagContracts states) :
    ∃ x, Steps replies states x ∧ x.machine.todo = [] ∧ x.machine.waiting = [contract] ∧
      Inv states replies ((dagContracts states).erase contract) x := by
  have hperm : ([contract] ++ (dagContracts states).erase contract).Perm (dagContracts states) :=
    (List.perm_cons_erase hmem).symm
  obtain ⟨x, hrun, htodo, hinv⟩ := exists_replied replies states _ _ hperm
  have hopen := (List.perm_append_right_iff _).mp (hinv.groups.trans hperm.symm)
  rw [unreplied, htodo, List.nil_append] at hopen
  exact ⟨x, hrun, htodo, List.perm_singleton.mp hopen, hinv⟩

theorem replyCount_erase (replies : String → GroupReply) (hmem : contract ∈ dagContracts states) :
    replyCount replies (dagContracts states)
      = replyCount replies ((dagContracts states).erase contract)
        + (replies contract).responses.length := by
  rw [replyCount_perm (List.perm_cons_erase hmem), Nat.add_comm]
  simp [replyCount]

end DagRun

open DagRun

theorem dagContracts_ne_nil (hdag : ∃ n ∈ states, n.2.enableDAG = true) :
    dagContracts states ≠ [] ∧ 0 < dagCount states := by
  obtain ⟨n, hn, hflag⟩ := hdag
  have hmem : n ∈ states.filter fun n => n.2.enableDAG := List.mem_filter.mpr ⟨hn, hflag⟩
  exact ⟨List.ne_nil_of_mem (mem_dagContracts.mpr (List.mem_map.mpr ⟨n, hmem, rfl⟩)),
    List.length_pos_of_mem hmem⟩

theorem counts_of_answersOnce (hdag : ∃ n ∈ states, n.2.enableDAG = true)
    (h : DagAnswersOnce states replies) :
    replyCount replies (dagContracts states) = dagCount states ∧
      ∀ contract ∈ dagContracts states, (replies contract).responses ≠ [] := by
  obtain ⟨hne, hcount⟩ := dagContracts_ne_nil hdag
  have hopen : ∀ {contract : String} {x : DagRun}, x.machine.waiting = [contract] → ¬ x.Done := by
    intro contract x hwaiting hdone
    rw [hdone.2] at hwaiting
    cases hwaiting
  have hsum : replyCount replies (dagContracts states) = dagCount states := by
    -- whichever group is the last one, its reply has to be answered
    obtain ⟨contract, hmem⟩ := List.exists_mem_of_ne_nil _ hne
    obtain ⟨x, hrun, htodo, hwaiting, hinv⟩ := exists_last replies hmem
    have hstep : Step replies x (x.reply contract (replies contract)) :=
      .reply (by simp [hwaiting])
    have hinv' := hinv.reply (show contract ∈ x.machine.waiting by simp [hwaiting])
    have hgroups := hinv'.groups
    have hdone : (x.reply contract (replies contract)).Done := by
      rw [done_iff]
      apply List.length_eq_zero_iff.mp
      have hlen := hgroups.length_eq
      rw [List.length_append, List.length_append, List.length_erase_of_mem hmem] at hlen
      have := List.length_pos_of_mem hmem
      simp only [List.length_singleton] at hlen
      omega
    obtain ⟨answer, hanswers, -⟩ := h.once _ (hrun.tail hstep) hdone
    simp only [DagRun.reply, h.notEarly x hrun (hopen hwaiting), List.nil_append] at hanswers
    have hzero : (x.reply contract (replies contract)).machine.totalCount = 0 := by
      by_contra hnz
      have hnone := answer_eq_none_iff.mpr hnz
      rw [DagRun.reply] at hnone
      rw [hnone] at hanswers
      cases hanswers
    rw [hinv'.count, replyCount_append] at hzero
    have hlast : replyCount replies [contract] = (replies contract).responses.length := by
      simp [replyCount]
    have herase := replyCount_erase replies hmem
    omega
  refine ⟨hsum, fun contract hmem hempty => ?_⟩
  -- before its empty reply the last group finds the counter at zero
  obtain ⟨x, hrun, -, hwaiting, hinv⟩ := exists_last replies hmem
  have herase := replyCount_erase replies hmem
  rw [hempty, List.length_nil] at herase
  rcases hinv.silent (h.notEarly x hrun (hopen hwaiting)) with hnil | hnz
  · rw [hnil] at herase
    have : replyCount replies [] = 0 := rfl
    omega
  · rw [hinv.count] at hnz
    omega

/-- **`DAGExecute` answers once in every order iff the replies add up.**  For
states with at least one DAG transaction: the callback is called exactly once,
after every group has replied, with an error iff a group failed and on success
with every reply at its place, in every order of sends and replies, if and only
if the replies have as many messages as were sent in all and none is empty. -/
theorem dagAnswersOnce_iff (hdag : ∃ n ∈ states, n.2.enableDAG = true)
    (replies : String → GroupReply) :
    DagAnswersOnce states replies ↔
      replyCount replies (dagContracts states) = dagCount states ∧
        ∀ contract ∈ dagContracts states, (replies contract).responses ≠ [] := by
  constructor
  · exact counts_of_answersOnce hdag
  · rintro ⟨hsum, hpos⟩
    exact answersOnce_of_counts hsum hpos (dagContracts_ne_nil hdag).1

/-! ### Small blocks -/

/-- A block of calls to the given contracts with the DAG attribute. -/
def dagCallsTo (contracts : List String) : Block where
  number := 7
  metaData := contracts.map fun contract =>
    { hash := 1, toAddr := contract, attributes := { dag := true } }

/-- Two groups, one with two calls; each call is sent back. -/
theorem dagAnswersOnce_three_calls :
    DagAnswersOnce (blockStates plainEnv (dagCallsTo ["a", "b", "a"])).1 fun contract =>
      { responses := List.replicate (if contract = "a" then 2 else 1)
          (some { type := .SEND_BACK, contextID := 0 }) } := by
  refine (dagAnswersOnce_iff ?_ _).mpr ⟨?_, ?_⟩
  · decide +kernel
  · decide +kernel
  · decide +kernel

/-- A group that fails with an empty list: everybody has replied, and the
callback is never called. -/
theorem dagExecute_silent :
    ¬ DagAnswersOnce (blockStates plainEnv (dagCallsTo ["a"])).1
        (fun _ => { error := some ⟨-1, "executor error"⟩ }) ∧
    ∃ x, DagRun.Steps (fun _ => { error := some ⟨-1, "executor error"⟩ })
        (blockStates plainEnv (dagCallsTo ["a"])).1 x ∧ x.Done ∧ x.answers = [] := by
  have hrun : ∃ x, DagRun.Steps (fun _ => { error := some ⟨-1, "executor error"⟩ })
      (blockStates plainEnv (dagCallsTo ["a"])).1 x ∧ x.Done ∧ x.answers = [] := by
    refine ⟨_, .tail (.single (@DagRun.Step.send _ _ "a" [] ?_)) (@DagRun.Step.reply _ _ "a" ?_),
      ⟨?_, ?_⟩, ?_⟩
    all_goals decide +kernel
  refine ⟨fun h => ?_, hrun⟩
  obtain ⟨x, hsteps, hdone, hnone⟩ := hrun
  obtain ⟨answer, hanswers, -⟩ := h.once x hsteps hdone
  rw [hnone] at hanswers
  cases hanswers

end BcosScheduler
