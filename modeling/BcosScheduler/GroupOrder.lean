/-
BcosScheduler/GroupOrder.lean

The order of the groups leaves no trace in the states.

Each group is a fiber of `dagGroup`; sending a group and storing its reply change
this fiber only.  So while `DAGExecute` runs a fiber is as in the filled map, with
its frames pushed, or with its reply stored, as far as its group has come
(`Placed`).  A list is determined by its keys and its fibers, so when all groups
have replied well the states are the same in every order (`states_unique`).
-/
import BcosScheduler.DagAnswer

namespace BcosScheduler

variable {states nodes : List Node} {contract : String} {replies : String → GroupReply}
  {n n' : Node} {k : Option String}

/-! ### Lists and their fibers -/

/-- A list is determined by its keys and the elements with each key. -/
theorem eq_of_fibers {α κ : Type*} [DecidableEq κ] (f : α → κ) :
    ∀ {l l' : List α}, l.map f = l'.map f →
      (∀ k, l.filter (fun a => f a = k) = l'.filter fun a => f a = k) → l = l' := by
  intro l
  induction l with
  | nil =>
      intro l' hkeys _
      exact (List.map_eq_nil_iff.mp hkeys.symm).symm
  | cons a l ih =>
      intro l' hkeys hfibers
      rcases l' with _ | ⟨b, l'⟩
      · cases hkeys
      · obtain ⟨hkey, htail⟩ := List.cons.inj hkeys
        have hhead := hfibers (f a)
        rw [List.filter_cons_of_pos (by simp), List.filter_cons_of_pos (by simp [hkey])] at hhead
        obtain ⟨rfl, hsame⟩ := List.cons.inj hhead
        congr 1
        apply ih htail
        intro k
        by_cases hk : f a = k
        · rw [← hk]
          exact hsame
        · have hother := hfibers k
          rwa [List.filter_cons_of_neg (by simp [hk]), List.filter_cons_of_neg (by simp [hk])]
            at hother

/-! ### Groups as fibers -/

/-- The group a state is sent with, if it is sent by `DAGExecute`. -/
def dagGroup (n : Node) : Option String := if n.2.enableDAG then some (ofLex n.1).1 else none

/-- The states with a group. -/
def fiber (k : Option String) (states : List Node) : List Node :=
  states.filter fun n => dagGroup n = k

theorem inGroup_iff : inGroup contract n = true ↔ dagGroup n = some contract := by
  unfold inGroup dagGroup
  split_ifs with h
  · simp [h]
  · simp [h]

theorem fiber_some (contract : String) (states : List Node) :
    fiber (some contract) states = states.filter (inGroup contract) := by
  apply List.filter_congr
  intro n _
  rw [Bool.eq_iff_iff, inGroup_iff, decide_eq_true_iff]

theorem dagGroup_of_tag (h : nodeTag n = nodeTag n') : dagGroup n = dagGroup n' := by
  simp only [nodeTag, Prod.mk.injEq] at h
  rw [dagGroup, dagGroup, h.1, h.2.2]

theorem dagGroups_of_tags (h : nodes.map nodeTag = states.map nodeTag) :
    nodes.map dagGroup = states.map dagGroup := by
  have hmap : ∀ l : List Node, l.map dagGroup
      = (l.map nodeTag).map fun tag => if tag.2.2 then some (ofLex tag.1).1 else none := by
    intro l
    rw [List.map_map]
    rfl
  rw [hmap, hmap, h]

/-- Write one message of a reply into its state. -/
def storeResponse (n : Node) (response : Option ExecutionMessage) : Node :=
  (n.1, { n.2 with message := response })

/-- Sending a group leaves the other fibers. -/
theorem fiber_pushFrame_of_ne (hne : k ≠ some contract) (nodes : List Node) :
    fiber k (nodes.map (DagMachine.pushFrame contract)) = fiber k nodes := by
  induction nodes with
  | nil => rfl
  | cons n rest ih =>
      unfold fiber at ih ⊢
      rw [List.map_cons, List.filter_cons, List.filter_cons, ih,
        dagGroup_of_tag (nodeTag_pushFrame contract n)]
      split_ifs with hk
      · rw [pushFrame_of_not]
        rw [← Bool.not_eq_true, inGroup_iff]
        exact fun hn => hne ((of_decide_eq_true hk).symm.trans hn)
      · rfl

theorem fiber_pushFrame (contract : String) (nodes : List Node) :
    fiber (some contract) (nodes.map (DagMachine.pushFrame contract))
      = (fiber (some contract) nodes).map (DagMachine.pushFrame contract) := by
  rw [fiber, List.filter_map]
  congr 1
  apply List.filter_congr
  intro n _
  rw [Function.comp_apply, dagGroup_of_tag (nodeTag_pushFrame contract n)]

/-- Storing the reply of a group leaves the other fibers. -/
theorem fiber_storeResponses_of_ne (hne : k ≠ some contract) (nodes : List Node) :
    ∀ responses, fiber k (DagMachine.storeResponses contract nodes responses) = fiber k nodes := by
  induction nodes with
  | nil => exact fun _ => rfl
  | cons n rest ih =>
      intro responses
      unfold fiber at ih ⊢
      unfold DagMachine.storeResponses
      split_ifs with hn
      · rw [inGroup_iff] at hn
        have hnot : ¬ dagGroup n = k := fun hk => hne (hk.symm.trans hn)
        rcases responses with _ | ⟨response, responses⟩
        · rfl
        · have hstored : ¬ dagGroup (storeResponse n response) = k := hnot
          show List.filter _ (storeResponse n response :: _) = _
          rw [List.filter_cons_of_neg (by simpa using hstored),
            List.filter_cons_of_neg (by simpa using hnot)]
          exact ih responses
      · rw [List.filter_cons, List.filter_cons, ih responses]

theorem fiber_storeResponses (contract : String) (nodes : List Node) :
    ∀ responses, groupSize nodes contract = responses.length →
      fiber (some contract) (DagMachine.storeResponses contract nodes responses)
        = List.zipWith storeResponse (fiber (some contract) nodes) responses := by
  simp only [groupSize, fiber_some]
  induction nodes with
  | nil => exact fun _ _ => rfl
  | cons n rest ih =>
      intro responses hlen
      unfold DagMachine.storeResponses
      split_ifs with hn
      · rw [List.filter_cons_of_pos hn, List.length_cons] at hlen
        rcases responses with _ | ⟨response, responses⟩
        · cases hlen
        · have hstored : inGroup contract (storeResponse n response) = true := hn
          rw [List.filter_cons_of_pos hn]
          show List.filter _ (storeResponse n response :: _) = _
          rw [List.filter_cons_of_pos hstored, List.zipWith_cons_cons, ih _ (Nat.succ.inj hlen)]
      · rw [List.filter_cons_of_neg hn] at hlen ⊢
        rw [List.filter_cons_of_neg hn]
        exact ih responses hlen

/-! ### The invariant -/

/-- The fiber of a contract when its group was sent and has replied. -/
def storedFiber (replies : String → GroupReply) (states : List Node) (contract : String) :
    List Node :=
  List.zipWith storeResponse ((fiber (some contract) states).map (DagMachine.pushFrame contract))
    (replies contract).responses

namespace DagRun

variable {x x₁ x₂ : DagRun} {replied : List String}

/-- How far each fiber has come when the groups in `replied` have replied. -/
structure Placed (states : List Node) (replies : String → GroupReply) (replied : List String)
    (x : DagRun) : Prop where
  others : fiber none x.machine.states = fiber none states
  ahead : ∀ c ∈ x.machine.todo, fiber (some c) x.machine.states = fiber (some c) states
  sent : ∀ c ∈ x.machine.waiting,
    fiber (some c) x.machine.states = (fiber (some c) states).map (DagMachine.pushFrame c)
  stored : ∀ c ∈ replied, ¬ (replies c).fails states c →
    fiber (some c) x.machine.states = storedFiber replies states c

theorem placed_start (states : List Node) (replies : String → GroupReply) :
    Placed states replies [] ⟨DagMachine.start states, []⟩ where
  others := rfl
  ahead := fun _ _ => rfl
  sent := by simp [DagMachine.start]
  stored := by simp

theorem Placed.send (h : Placed states replies replied x) (hinv : Inv states replies replied x)
    {rest : List String} (htodo : x.machine.todo = contract :: rest) :
    Placed states replies replied { x with machine := x.machine.send contract rest } := by
  have hopen : contract ∈ x.unreplied := by simp [unreplied, htodo]
  have hnodup := hinv.nodup
  rw [unreplied, htodo, List.append_assoc, List.cons_append, List.nodup_cons] at hnodup
  -- whoever is elsewhere is another contract, whose fiber stays
  have hother : ∀ {c : String} {nodes : List Node}, c ≠ contract →
      fiber (some c) x.machine.states = nodes →
      fiber (some c) (x.machine.send contract rest).states = nodes := by
    intro c nodes hne heq
    rw [← heq]
    exact fiber_pushFrame_of_ne (fun hc => hne (Option.some.inj hc)) _
  refine ⟨?_, fun c hc => ?_, fun c hc => ?_, fun c hc hok => ?_⟩
  · rw [← h.others]
    exact fiber_pushFrame_of_ne (by simp) _
  · apply hother
    · rintro rfl
      exact hnodup.1 (List.mem_append_left _ hc)
    · exact h.ahead c (htodo ▸ List.mem_cons_of_mem _ hc)
  · rcases List.mem_append.mp hc with hwaiting | hlast
    · apply hother
      · rintro rfl
        exact hnodup.1 (List.mem_append_right _ (List.mem_append_left _ hwaiting))
      · exact h.sent c hwaiting
    · rw [List.mem_singleton.mp hlast, ← h.ahead contract (htodo ▸ List.mem_cons_self ..)]
      exact fiber_pushFrame contract _
  · exact hother (hinv.ne_of_replied hopen hc) (h.stored c hc hok)

theorem Placed.reply (h : Placed states replies replied x) (hinv : Inv states replies replied x)
    (hmem : contract ∈ x.machine.waiting) :
    Placed states replies (replied ++ [contract]) (x.reply contract (replies contract)) := by
  have hopen : contract ∈ x.unreplied := List.mem_append_right _ hmem
  have hnodup := (List.nodup_append.mp (List.nodup_append.mp hinv.nodup).1)
  have hahead : ∀ c ∈ x.machine.todo, c ≠ contract := fun c hc => hnodup.2.2 c hc contract hmem
  have hsent : ∀ c ∈ x.machine.waiting.erase contract, c ≠ contract := fun c hc =>
    ((hnodup.2.1.mem_erase_iff).mp hc).1
  rcases receive_cases hinv contract (replies contract) with ⟨hfails, heq⟩ | ⟨hok, hsize, heq⟩
  · simp only [DagRun.reply, heq]
    refine ⟨h.others, h.ahead, fun c hc => h.sent c (List.mem_of_mem_erase hc), fun c hc hok => ?_⟩
    rcases List.mem_append.mp hc with hc | hc
    · exact h.stored c hc hok
    · rw [List.mem_singleton.mp hc] at hok
      exact absurd hfails hok
  · simp only [DagRun.reply, heq]
    have hother : ∀ {c : String} {nodes : List Node}, c ≠ contract →
        fiber (some c) x.machine.states = nodes →
        fiber (some c) (DagMachine.storeResponses contract x.machine.states
          (replies contract).responses) = nodes := by
      intro c nodes hne heq
      rw [← heq]
      exact fiber_storeResponses_of_ne (fun hc => hne (Option.some.inj hc)) _ _
    refine ⟨?_, fun c hc => hother (hahead c hc) (h.ahead c hc),
      fun c hc => hother (hsent c hc) (h.sent c (List.mem_of_mem_erase hc)), fun c hc hok' => ?_⟩
    · rw [← h.others]
      exact fiber_storeResponses_of_ne (by simp) _ _
    · rcases List.mem_append.mp hc with hc | hc
      · exact hother (hinv.ne_of_replied hopen hc) (h.stored c hc hok')
      · rw [List.mem_singleton.mp hc, storedFiber, ← h.sent contract hmem]
        exact fiber_storeResponses contract _ _ hsize

theorem Steps.placed (h : Steps replies states x) :
    ∃ replied, Inv states replies replied x ∧ Placed states replies replied x := by
  induction h with
  | refl => exact ⟨[], inv_start states replies, placed_start states replies⟩
  | tail _ hstep ih =>
      obtain ⟨replied, hinv, hplaced⟩ := ih
      cases hstep with
      | send htodo => exact ⟨replied, hinv.send htodo, hplaced.send hinv htodo⟩
      | reply hmem => exact ⟨_, hinv.reply hmem, hplaced.reply hinv hmem⟩

/-! ### When every group has replied -/

/-- All groups have replied, and none has failed. -/
def Succeeded (x : DagRun) : Prop := x.Done ∧ x.machine.failed = 0

theorem Steps.fiber_of_succeeded (h : Steps replies states x) (hdone : x.Succeeded) :
    x.machine.states.map nodeTag = states.map nodeTag ∧
    (∀ c ∈ dagContracts states, ¬ (replies c).fails states c) ∧
    fiber none x.machine.states = fiber none states ∧
    ∀ c, fiber (some c) x.machine.states = storedFiber replies states c := by
  obtain ⟨replied, hinv, hplaced⟩ := h.placed
  have hgroups := hinv.groups
  rw [done_iff.mp hdone.1, List.nil_append] at hgroups
  have hok : ∀ c ∈ dagContracts states, ¬ (replies c).fails states c := by
    intro c hc hfails
    have hpos := hinv.failed.mpr ⟨c, hgroups.mem_iff.mpr hc, hfails⟩
    exact hpos.ne' hdone.2
  refine ⟨hinv.tags, hok, hplaced.others, fun c => ?_⟩
  by_cases hc : c ∈ dagContracts states
  · exact hplaced.stored c (hgroups.mem_iff.mpr hc) (hok c hc)
  · -- a contract without group has an empty fiber before and after
    have hempty : groupSize states c = 0 := by
      rw [groupSize_eq_count, List.count_eq_zero, ← mem_dagContracts]
      exact hc
    have hafter : groupSize x.machine.states c = 0 :=
      (group_length_of_tags c hinv.tags).trans hempty
    rw [groupSize, List.length_eq_zero_iff, ← fiber_some] at hempty hafter
    rw [storedFiber, hempty, hafter]
    rfl

/-- The order of sends and replies leaves no trace. -/
theorem states_unique (h₁ : Steps replies states x₁) (h₂ : Steps replies states x₂)
    (hdone₁ : x₁.Succeeded) (hdone₂ : x₂.Succeeded) : x₁.machine.states = x₂.machine.states := by
  obtain ⟨htags₁, -, hnone₁, hsome₁⟩ := h₁.fiber_of_succeeded hdone₁
  obtain ⟨htags₂, -, hnone₂, hsome₂⟩ := h₂.fiber_of_succeeded hdone₂
  apply eq_of_fibers dagGroup (dagGroups_of_tags (htags₁.trans htags₂.symm))
  rintro (_ | c)
  · exact hnone₁.trans hnone₂.symm
  · exact (hsome₁ c).trans (hsome₂ c).symm

/-- A state after `DAGExecute` is a state of the map, or one with its first frame
pushed and a message of its group's reply. -/
theorem Steps.mem_states (h : Steps replies states x) (hdone : x.Succeeded)
    (hn : n ∈ x.machine.states) :
    n ∈ states ∨ ∃ (c : String) (n₀ : Node) (i : Nat) (response : Option ExecutionMessage),
      (fiber (some c) states)[i]? = some n₀ ∧ (replies c).responses[i]? = some response ∧
      n = storeResponse (DagMachine.pushFrame c n₀) response := by
  obtain ⟨-, -, hnone, hsome⟩ := h.fiber_of_succeeded hdone
  rcases hk : dagGroup n with _ | c
  · have hmem : n ∈ fiber none x.machine.states := List.mem_filter.mpr ⟨hn, by simp [hk]⟩
    rw [hnone] at hmem
    exact Or.inl (List.mem_filter.mp hmem).1
  · have hmem : n ∈ fiber (some c) x.machine.states := List.mem_filter.mpr ⟨hn, by simp [hk]⟩
    rw [hsome, storedFiber] at hmem
    obtain ⟨i, hi⟩ := List.mem_iff_getElem?.mp hmem
    rw [List.getElem?_zipWith_eq_some] at hi
    obtain ⟨n₁, response, hn₁, hresponse, rfl⟩ := hi
    rw [List.getElem?_map, Option.map_eq_some_iff] at hn₁
    obtain ⟨n₀, hn₀, rfl⟩ := hn₁
    exact Or.inr ⟨c, n₀, i, response, hn₀, hresponse, rfl⟩

end DagRun

end BcosScheduler
