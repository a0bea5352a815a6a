/-
BcosScheduler/Visits.lean

The visits of one `traverseExecutive`, and what becomes of every node.

`traverseVisits` lists the calls of the callback with their hints.  The visited
nodes are a sublist of the map, so they come in key order and once each; a node is
passed by only behind a `SKIP` in its key group or behind an `END`; and the map
afterwards consists of the nodes passed by and of what the hints left of the others
(`Visited`, `traverseExecutive_visits`).  No node is lost when the extracted ones are
put back, since their keys hold distinct contexts (`reinsert_perm`).
-/
import BcosScheduler.Traverse

namespace BcosScheduler

/-- A call of the callback: the node, the hint, and the state as the call left it. -/
structure Visit where
  node : Node
  hint : TraverseHint
  after : ExecutiveState
  deriving DecidableEq

/-- The calls that the loop of `traverseExecutive` makes over the nodes ahead. -/
def traverseVisits {σ : Type*} (callback : TraverseCallback σ) :
    List Node → σ → Cursor → List Visit
  | [], _, _ => []
  | n :: rest, s, c =>
      if c.jumps n then traverseVisits callback rest s (c.keep n)
      else
        match callback s n.2 with
        | .error _ => []
        | .ok (hint, s', state) =>
            ⟨n, hint, state⟩ :: if hint = .END then [] else
              traverseVisits callback rest s' (c.advance hint (n.1, state) rest).1

namespace Visit

/-- What is put aside to be filed under a new key. -/
def updates (v : Visit) : Option Node :=
  match v.hint with
  | .UPDATE => some (v.node.1, v.after)
  | _ => none

/-- What stays under its key. -/
def stays (v : Visit) : Option Node :=
  match v.hint with
  | .UPDATE | .DELETE => none
  | .PASS | .SKIP | .END => some (v.node.1, v.after)

/-- What the map holds of the node in the end. -/
def result (v : Visit) : Option Node :=
  match v.hint with
  | .DELETE => none
  | .UPDATE => some (v.after.updateKey, v.after)
  | .PASS | .SKIP | .END => some (v.node.1, v.after)

/-- The traversal passes the node by because of this visit: it is in the key group that
was skipped, or behind the end. -/
def Hides (v : Visit) (n : Node) : Prop :=
  v.node.1 < n.1 ∧ (v.hint = .END ∨ v.hint = .SKIP ∧ (ofLex v.node.1).1 = (ofLex n.1).1)

end Visit

/-- The nodes without a visit. -/
def unvisited (nodes : List Node) (visits : List Visit) : List Node :=
  nodes.filter fun n => n ∉ visits.map Visit.node

theorem unvisited_cons_of_notMem {n : Node} {rest : List Node} {visits : List Visit}
    (h : n ∉ visits.map Visit.node) : unvisited (n :: rest) visits = n :: unvisited rest visits := by
  rw [unvisited, List.filter_cons_of_pos (by simpa using h)]
  rfl

theorem unvisited_cons_visit {v : Visit} {rest : List Node} {visits : List Visit}
    (h : v.node ∉ rest) : unvisited (v.node :: rest) (v :: visits) = unvisited rest visits := by
  rw [unvisited, List.filter_cons_of_neg (by simp)]
  apply List.filter_congr
  intro n hn
  have hne : n ≠ v.node := fun heq => h (heq ▸ hn)
  simp [hne]

/-! ### One traversal -/

/-- What a traversal that made `visits` over `todo` has done to the cursor. -/
structure Visited (todo : List Node) (visits : List Visit) (c c' : Cursor) : Prop where
  sublist : (visits.map Visit.node).Sublist todo
  behind : c'.visited.Perm (c.visited ++ (unvisited todo visits ++ visits.filterMap Visit.stays))
  updates : c'.updateNodes = (visits.filterMap Visit.updates).reverse ++ c.updateNodes
  passedBy : ∀ n ∈ unvisited todo visits, c.jumps n = true ∨ ∃ v ∈ visits, v.Hides n

section Loop

variable {n : Node} {rest : List Node} {visits : List Visit} {c c' : Cursor}

theorem Visited.nil (c : Cursor) : Visited [] [] c c where
  sublist := List.Sublist.refl _
  behind := by simp [unvisited]
  updates := rfl
  passedBy := by simp [unvisited]

theorem notMem_rest (hasc : OrderedMap.Ascending (n :: rest)) : n ∉ rest :=
  fun hmem => lt_irrefl _ ((List.pairwise_cons.mp hasc).1 n hmem)

/-- A node that is jumped over. -/
theorem Visited.jump (h : Visited rest visits (c.keep n) c')
    (hasc : OrderedMap.Ascending (n :: rest)) (hj : c.jumps n = true) :
    Visited (n :: rest) visits c c' := by
  have hnot : n ∉ visits.map Visit.node := fun hmem => notMem_rest hasc (h.sublist.subset hmem)
  refine ⟨h.sublist.cons _, ?_, h.updates, ?_⟩
  · rw [unvisited_cons_of_notMem hnot]
    simpa [Cursor.keep] using h.behind
  · rw [unvisited_cons_of_notMem hnot]
    intro k hk
    rcases List.mem_cons.mp hk with rfl | hk
    · exact Or.inl hj
    · exact h.passedBy k hk

/-- A visited node from which the traversal goes on. -/
theorem Visited.visit {hint : TraverseHint} {state : ExecutiveState}
    (h : Visited rest visits (c.advance hint (n.1, state) rest).1 c')
    (hasc : OrderedMap.Ascending (n :: rest)) (hend : hint ≠ .END) :
    Visited (n :: rest) (⟨n, hint, state⟩ :: visits) c c' := by
  have hun : unvisited (n :: rest) (⟨n, hint, state⟩ :: visits) = unvisited rest visits :=
    unvisited_cons_visit (v := ⟨n, hint, state⟩) (notMem_rest hasc)
  have hlt := (List.pairwise_cons.mp hasc).1
  have hold : ∀ k ∈ unvisited rest visits, (c.advance hint (n.1, state) rest).1.jumps k = true →
      c.jumps k = true ∨ Visit.Hides ⟨n, hint, state⟩ k := by
    intro k hk hj
    cases hint with
    | PASS => exact Or.inl hj
    | DELETE => exact Or.inl hj
    | UPDATE => exact Or.inl hj
    | END => exact absurd rfl hend
    | SKIP =>
        -- above the node and not above the bound: of the same group
        have hnk := hlt k (List.mem_of_mem_filter hk)
        have hkb : k.1 ≤ toLex ((ofLex n.1).1, INT64_MAX) := by
          simpa [Cursor.advance, Cursor.keep, Cursor.jumps] using hj
        refine Or.inr ⟨hnk, Or.inr ⟨rfl, le_antisymm ?_ ?_⟩⟩
        · exact Prod.Lex.monotone_fst _ _ hnk.le
        · have hgroup := Prod.Lex.monotone_fst _ _ hkb
          exact hgroup
  refine ⟨h.sublist.cons_cons _, ?_, ?_, ?_⟩
  · have hkept : ((n.1, state) :: (unvisited rest visits ++ visits.filterMap Visit.stays)).Perm
        (unvisited rest visits ++ (n.1, state) :: visits.filterMap Visit.stays) :=
      List.perm_middle.symm
    rw [hun]
    apply h.behind.trans
    cases hint with
    | END => exact absurd rfl hend
    | DELETE => exact List.Perm.refl _
    | UPDATE => exact List.Perm.refl _
    | PASS =>
        simp only [Cursor.advance, Cursor.keep, List.append_assoc]
        exact hkept.append_left _
    | SKIP =>
        simp only [Cursor.advance, Cursor.keep, List.append_assoc]
        exact hkept.append_left _
  · rw [h.updates]
    cases hint with
    | END => exact absurd rfl hend
    | UPDATE => simp [Cursor.advance, Visit.updates]
    | _ => rfl
  · rw [hun]
    intro k hk
    rcases h.passedBy k hk with hj | ⟨v, hv, hhides⟩
    · rcases hold k hk hj with hj | hhides
      · exact Or.inl hj
      · exact Or.inr ⟨_, List.mem_cons_self, hhides⟩
    · exact Or.inr ⟨v, List.mem_cons_of_mem _ hv, hhides⟩

/-- The node at which the traversal ends. -/
theorem Visited.end {state : ExecutiveState} (hasc : OrderedMap.Ascending (n :: rest)) :
    Visited (n :: rest) [⟨n, .END, state⟩] c (c.advance .END (n.1, state) rest).1 := by
  have hun : unvisited (n :: rest) [⟨n, .END, state⟩] = rest := by
    rw [unvisited_cons_visit (v := ⟨n, .END, state⟩) (notMem_rest hasc)]
    exact List.filter_eq_self.mpr (by simp)
  refine ⟨(List.Sublist.refl [n]).trans (by simp), ?_, rfl, ?_⟩
  · rw [hun]
    exact (List.perm_append_singleton _ _).symm.append_left _
  · rw [hun]
    intro k hk
    exact Or.inr ⟨_, List.mem_singleton_self _, (List.pairwise_cons.mp hasc).1 k hk, Or.inl rfl⟩

variable {σ : Type*} {callback : TraverseCallback σ}

/-- A whole traversal that does not throw. -/
theorem traverseFrom_visited : ∀ {todo : List Node} {s s' : σ} {c c' : Cursor},
    OrderedMap.Ascending todo → traverseFrom callback todo s c = .ok (s', c') →
    Visited todo (traverseVisits callback todo s c) c c' := by
  intro todo
  induction todo with
  | nil =>
      intro s s' c c' _ h
      simp only [traverseFrom, Except.ok.injEq, Prod.mk.injEq] at h
      rw [← h.2]
      exact .nil c
  | cons n rest ih =>
      intro s s' c c' hasc h
      have hrest : OrderedMap.Ascending rest := hasc.tail
      rw [traverseFrom_cons] at h
      by_cases hj : c.jumps n = true
      · simp only [traverseStep, if_pos hj] at h
        rw [traverseVisits, if_pos hj]
        exact (ih hrest h).jump hasc hj
      · rw [traverseVisits, if_neg hj]
        simp only [traverseStep, if_neg hj] at h
        rcases hcall : callback s n.2 with f | ⟨hint, s₁, state⟩
        · rw [hcall] at h
          cases h
        · rw [hcall] at h
          dsimp only at h ⊢
          by_cases hend : hint = .END
          · subst hend
            have hc : (c.advance .END (n.1, state) rest).1 = c' := by
              simp only [Cursor.advance, traverseFrom, Except.ok.injEq, Prod.mk.injEq] at h
              exact h.2
            rw [if_pos rfl, ← hc]
            exact .end hasc
          · have hgoes : (c.advance hint (n.1, state) rest).2 = rest := by
              cases hint with
              | END => exact absurd rfl hend
              | _ => rfl
            rw [hgoes] at h
            rw [if_neg hend]
            exact (ih hrest h).visit hasc hend

/-- A visit records a call of the callback. -/
theorem visit_call {v : Visit} : ∀ {todo : List Node} {s : σ} {c : Cursor},
    v ∈ traverseVisits callback todo s c →
    ∃ s₀ s₁, callback s₀ v.node.2 = .ok (v.hint, s₁, v.after) := by
  intro todo
  induction todo with
  | nil => exact fun hv => by cases hv
  | cons n rest ih =>
      intro s c hv
      rw [traverseVisits] at hv
      split_ifs at hv with hj
      · exact ih hv
      · rcases hcall : callback s n.2 with f | ⟨hint, s₁, state⟩
        · rw [hcall] at hv
          cases hv
        · rw [hcall] at hv
          rcases List.mem_cons.mp hv with rfl | hv
          · exact ⟨s, s₁, hcall⟩
          · split_ifs at hv
            · cases hv
            · exact ih hv

end Loop

/-! ### Visits one by one -/

section Turns

variable {σ : Type*} {callback : TraverseCallback σ} {n : Node} {rest rest' : List Node}
  {s s' : σ} {c c' : Cursor}

theorem traverseVisits_jump (hj : c.jumps n = true) :
    traverseVisits callback (n :: rest) s c = traverseVisits callback rest s (c.keep n) := by
  rw [traverseVisits, if_pos hj]

/-- A visit comes first, then those of the rest of the traversal. -/
theorem traverseVisits_visit {hint : TraverseHint} {state : ExecutiveState}
    (hj : c.jumps n = false) (hcall : callback s n.2 = .ok (hint, s', state))
    (heq : (c', rest') = c.advance hint (n.1, state) rest) :
    traverseVisits callback (n :: rest) s c
      = ⟨n, hint, state⟩ :: traverseVisits callback rest' s' c' := by
  rw [traverseVisits, if_neg (by simp [hj]), hcall]
  cases hint <;> cases heq <;> rfl

/-- What a traversal does at a node it does not jump over. -/
theorem traverseFrom_visit {hint : TraverseHint} {state : ExecutiveState}
    (hj : c.jumps n = false) (hcall : callback s n.2 = .ok (hint, s', state))
    (heq : (c', rest') = c.advance hint (n.1, state) rest) :
    traverseFrom callback (n :: rest) s c = traverseFrom callback rest' s' c' := by
  rw [traverseFrom_cons]
  simp only [traverseStep, hj, Bool.false_eq_true, if_false, hcall, ← heq]

theorem traverseFrom_jump (hj : c.jumps n = true) :
    traverseFrom callback (n :: rest) s c = traverseFrom callback rest s (c.keep n) := by
  rw [traverseFrom_cons]
  simp only [traverseStep, hj, if_true]

variable {b b' : Option StateKey} {nodes active : List Node}

/-- A pass that clears marks, and goes on behind every node without one, acts on the
active nodes only; it fails where it fails on one of these. -/
theorem visits_of_marked
    (hskip : ∀ s state, state.skip = true →
      callback s state = .ok (.SKIP, s, { state with skip := false }))
    (hact : ∀ {s state hint s' state'}, state.skip = false →
      callback s state = .ok (hint, s', state') → hint = .PASS ∨ hint = .UPDATE)
    (h : Marked b nodes active b') : ∀ {s : σ} {c : Cursor}, c.bound = b →
      (∀ {r}, traverseFrom callback nodes s c = .ok r →
        ((traverseVisits callback nodes s c).filter fun v => v.hint ≠ .SKIP).map Visit.node
          = active) ∧
      ∀ {f}, traverseFrom callback nodes s c = .error f →
        ∃ n ∈ active, n.2.skip = false ∧ ∃ s, callback s n.2 = .error f := by
  induction h with
  | nil => exact fun _ => ⟨fun _ => rfl, fun h => by cases h⟩
  | @jump b b' n nodes active hjump _ _ ih =>
      rintro s c rfl
      have hj : c.jumps n = true := hjump
      rw [traverseFrom_jump hj, traverseVisits_jump hj]
      exact ih rfl
  | @skip b b' n nodes active hjump hs _ ih =>
      rintro s c rfl
      have hj : c.jumps n = false := hjump
      have hcall := hskip s _ hs
      obtain ⟨c', heq, hbound⟩ : ∃ c', (c', nodes)
          = c.advance .SKIP (n.1, { n.2 with skip := false }) nodes ∧ c'.bound = skipBound n :=
        ⟨_, rfl, rfl⟩
      rw [traverseFrom_visit hj hcall heq, traverseVisits_visit hj hcall heq]
      obtain ⟨hok, herr⟩ := ih (s := s) hbound
      exact ⟨fun hr => by simpa using hok hr, herr⟩
  | @act b b' n nodes active hjump hs _ ih =>
      rintro s c rfl
      have hj : c.jumps n = false := hjump
      rcases hcall : callback s n.2 with f | ⟨hint, s', state⟩
      · have hfail : traverseFrom callback (n :: nodes) s c = .error f := by
          rw [traverseFrom_cons]
          simp only [traverseStep, hj, Bool.false_eq_true, if_false, hcall]
        rw [hfail]
        constructor
        · intro r hr
          cases hr
        · intro f hf
          cases hf
          exact ⟨n, by simp, hs, s, hcall⟩
      · -- the bound is the same behind the node
        obtain ⟨c', heq, hbound, hhint⟩ : ∃ c', (c', nodes) = c.advance hint (n.1, state) nodes ∧
            c'.bound = c.bound ∧ hint ≠ .SKIP := by
          rcases hact hs hcall with rfl | rfl
          · exact ⟨_, rfl, rfl, by simp⟩
          · exact ⟨_, rfl, rfl, by simp⟩
        rw [traverseFrom_visit hj hcall heq, traverseVisits_visit hj hcall heq]
        obtain ⟨hok, herr⟩ := ih (s := s') hbound
        refine ⟨fun hr => ?_, fun hf => ?_⟩
        · rw [List.filter_cons_of_pos (by simpa using hhint), List.map_cons, hok hr]
        · obtain ⟨k, hk, hfail⟩ := herr hf
          exact ⟨k, List.mem_cons_of_mem n hk, hfail⟩

end Turns

/-! ### The map afterwards -/

section Map

variable {σ : Type*} {callback : TraverseCallback σ}

/-- A traversal that keeps contexts keeps them distinct, also when it deletes nodes. -/
theorem traverseFrom_nodup
    (hcall : ∀ {s state hint s' state'}, callback s state = .ok (hint, s', state') →
      state'.contextID = state.contextID)
    {states : List Node} (hkeyed : KeyedByContext states) (hnodup : (contexts states).Nodup)
    {s s' : σ} {c' : Cursor} (h : traverseFrom callback states s {} = .ok (s', c')) :
    (contexts (c'.updateNodes ++ c'.visited)).Nodup ∧ KeyedByContext c'.visited := by
  obtain ⟨hkeys, gone, hperm, -⟩ := traverseFrom_gone hcall hkeyed h
  have hall := hperm.nodup_iff.mpr hnodup
  rw [contexts, List.map_append] at hall
  exact ⟨hall.of_append_right, hkeys⟩

/-- The results of the visits: what was put aside, under its new key, and what
stayed. -/
theorem results_perm (visits : List Visit) : (visits.filterMap Visit.result).Perm
    ((visits.filterMap Visit.updates).map (fun n => (n.2.updateKey, n.2)) ++
      visits.filterMap Visit.stays) := by
  induction visits with
  | nil => exact List.Perm.refl _
  | cons v rest ih =>
      obtain ⟨n, hint, state⟩ := v
      cases hint with
      | PASS => exact (ih.cons _).trans List.perm_middle.symm
      | DELETE => exact ih
      | SKIP => exact (ih.cons _).trans List.perm_middle.symm
      | UPDATE => exact ih.cons _
      | END => exact (ih.cons _).trans List.perm_middle.symm

/-- The map after a traversal that keeps contexts: the nodes passed by, and what the
visits left of the others. -/
theorem traverseExecutive_perm
    (hcall : ∀ {s state hint s' state'}, callback s state = .ok (hint, s', state') →
      state'.contextID = state.contextID)
    {states states' : List Node} (hasc : OrderedMap.Ascending states)
    (hkeyed : KeyedByContext states) (hnodup : (contexts states).Nodup) {s s' : σ}
    (h : traverseExecutive callback states s = .ok (states', s')) :
    states'.Perm (unvisited states (traverseVisits callback states s {}) ++
      (traverseVisits callback states s {}).filterMap Visit.result) := by
  obtain ⟨c, hfrom, rfl⟩ := traverseExecutive_ok h
  have hvisited := traverseFrom_visited hasc hfrom
  obtain ⟨hdistinct, hkeys⟩ := traverseFrom_nodup hcall hkeyed hnodup hfrom
  set visits := traverseVisits callback states s {}
  have hput := reinsert_perm c.updateNodes hkeys hdistinct
  have hbehind : c.visited.Perm (unvisited states visits ++ visits.filterMap Visit.stays) := by
    simpa using hvisited.behind
  have hupdates : (c.updateNodes.map fun n => (n.2.updateKey, n.2)).Perm
      ((visits.filterMap Visit.updates).map fun n => (n.2.updateKey, n.2)) := by
    rw [hvisited.updates, List.append_nil]
    exact (List.reverse_perm _).map _
  refine hput.trans ((hupdates.append hbehind).trans ?_)
  refine (List.perm_append_comm_assoc _ _ _).trans ?_
  exact (results_perm visits).symm.append_left _

/-- A callback that never throws. -/
def noThrow (act : σ → ExecutiveState → TraverseHint × σ × ExecutiveState) :
    TraverseCallback σ := fun s state => .ok (act s state)

theorem traverseFrom_noThrow
    (act : σ → ExecutiveState → TraverseHint × σ × ExecutiveState) (states : List Node) (s : σ) :
    ∃ s' c, traverseFrom (noThrow act) states s {} = .ok (s', c) := by
  have hstep : ∀ {s c n rest}, True → ∃ r, traverseStep (noThrow act) n rest s c = .ok r := by
    intro s c n rest _
    unfold traverseStep
    split_ifs with hj
    · exact ⟨_, rfl⟩
    · exact ⟨_, rfl⟩
  have hok : ∃ r, traverseFrom (noThrow act) states s {} = .ok r :=
    traverseFrom_ok (P := fun _ _ _ => True) hstep (fun _ _ => trivial) trivial
  obtain ⟨⟨s', c⟩, hfrom⟩ := hok
  exact ⟨s', c, hfrom⟩

/-- The nodes that are put aside are those of the visits that answered `UPDATE`. -/
theorem mem_updates {visits : List Visit} {n : Node} :
    n ∈ visits.filterMap Visit.updates ↔
      ∃ v ∈ visits, v.hint = .UPDATE ∧ n = (v.node.1, v.after) := by
  rw [List.mem_filterMap]
  constructor
  · rintro ⟨v, hv, hn⟩
    obtain ⟨node, hint, after⟩ := v
    cases hint with
    | UPDATE => exact ⟨_, hv, rfl, (Option.some.inj hn).symm⟩
    | PASS => cases hn
    | DELETE => cases hn
    | SKIP => cases hn
    | END => cases hn
  · rintro ⟨v, hv, hhint, rfl⟩
    exact ⟨v, hv, by simp [Visit.updates, hhint]⟩

/-- **No transaction is lost or repeated.**  Over a map whose keys hold the distinct
contexts of their states, and with any callback that returns and keeps the context of
its state, the loop of `traverseExecutive` ends; it visits nodes in ascending key order,
each at most once; a node is passed by only behind a `SKIP` in its key group or behind an
`END`.  Unless an `UPDATE` was answered for a state without message, whose key would be
read from a null pointer, the map then holds, in ascending order, the nodes passed by, no
deleted node, the updated ones under the key of their message and context, and all others
under their old key. -/
theorem traverseExecutive_visits
    (act : σ → ExecutiveState → TraverseHint × σ × ExecutiveState)
    (hact : ∀ s state, (act s state).2.2.contextID = state.contextID) {states : List Node}
    (hasc : OrderedMap.Ascending states) (hkeyed : KeyedByContext states)
    (hnodup : (contexts states).Nodup) (s : σ) :
    ∃ visits, visits = traverseVisits (noThrow act) states s {} ∧
      (visits.map Visit.node).Sublist states ∧
      (visits.map Visit.node).Pairwise (fun a b => a.1 < b.1) ∧
      (∀ n ∈ states, n ∉ visits.map Visit.node → ∃ v ∈ visits, v.Hides n) ∧
      ((∃ v ∈ visits, v.hint = .UPDATE ∧ v.after.message = none) ∧
          traverseExecutive (noThrow act) states s = .error .nullMessage ∨
        ∃ states' s', traverseExecutive (noThrow act) states s = .ok (states', s') ∧
          OrderedMap.Ascending states' ∧
          states'.Perm (unvisited states visits ++ visits.filterMap Visit.result) ∧
          ∀ v ∈ visits, v.hint = .UPDATE → ∃ message, v.after.message = some message ∧
            v.result = some (toLex (message.toAddr, v.node.2.contextID), v.after)) := by
  have hcall : ∀ {s state hint s' state'}, noThrow act s state = .ok (hint, s', state') →
      state'.contextID = state.contextID := by
    intro s state hint s' state' h
    have hpair := hact s state
    rw [Except.ok.inj h] at hpair
    exact hpair
  obtain ⟨s', c, hfrom⟩ := traverseFrom_noThrow act states s
  have hvisited := traverseFrom_visited hasc hfrom
  have hupdated : ∀ n, n ∈ c.updateNodes ↔
      ∃ v ∈ traverseVisits (noThrow act) states s {}, v.hint = .UPDATE ∧ n = (v.node.1, v.after) := by
    intro n
    rw [hvisited.updates, List.append_nil, List.mem_reverse, mem_updates]
  refine ⟨_, rfl, hvisited.sublist, hasc.sublist hvisited.sublist, fun n hn hnot => ?_, ?_⟩
  · have hmem : n ∈ unvisited states (traverseVisits (noThrow act) states s {}) :=
      List.mem_filter.mpr ⟨hn, by simpa using hnot⟩
    rcases hvisited.passedBy n hmem with hj | hhides
    · cases hj
    · exact hhides
  · rcases traverseExecutive_cases hfrom with ⟨hmessages, hrun⟩ | ⟨⟨n, hn, hnone⟩, hrun⟩
    · refine Or.inr ⟨_, s', hrun, traverseExecutive_ascending hasc hrun,
        traverseExecutive_perm hcall hasc hkeyed hnodup hrun, fun v hv hhint => ?_⟩
      obtain ⟨message, hmsg⟩ := Option.ne_none_iff_exists'.mp
        (hmessages _ ((hupdated _).mpr ⟨v, hv, hhint, rfl⟩))
      obtain ⟨s₀, s₁, hv⟩ := visit_call hv
      have hctx := hcall hv
      refine ⟨message, hmsg, ?_⟩
      have hafter : v.after.message = some message := hmsg
      simp only [Visit.result, hhint, ExecutiveState.updateKey, hafter, hctx, Option.map_some,
        Option.getD_some]
    · obtain ⟨v, hv, hhint, rfl⟩ := (hupdated n).mp hn
      exact Or.inl ⟨⟨v, hv, hhint, hnone⟩, hrun⟩

/-- A state of `contract` whose next message goes to `z`. -/
def stateOf (contract : String) (contextID : ContextID) : Node :=
  (toLex (contract, contextID), { contextID := contextID
                                  message := some { type := .MESSAGE, contextID := contextID
                                                    toAddr := "z" } })

/-- Skip the group of context 0, file all others again. -/
def skipFirst (_ : Unit) (state : ExecutiveState) : TraverseHint × Unit × ExecutiveState :=
  (if state.contextID = 0 then .SKIP else .UPDATE, (), state)

/-- The second state of the skipped group is passed by and stays. -/
theorem traverseExecutive_visits_three : ∃ states' s' visits,
    traverseExecutive (noThrow skipFirst) [stateOf "a" 0, stateOf "a" 1, stateOf "b" 2] ()
      = .ok (states', s') ∧
    visits.map Visit.hint = [.SKIP, .UPDATE] ∧
    unvisited [stateOf "a" 0, stateOf "a" 1, stateOf "b" 2] visits = [stateOf "a" 1] ∧
    states'.Perm (stateOf "a" 1 :: visits.filterMap Visit.result) := by
  have hasc : OrderedMap.Ascending [stateOf "a" 0, stateOf "a" 1, stateOf "b" 2] := by
    unfold OrderedMap.Ascending
    decide +kernel
  have hkeyed : KeyedByContext [stateOf "a" 0, stateOf "a" 1, stateOf "b" 2] := by
    unfold KeyedByContext
    decide +kernel
  obtain ⟨visits, rfl, -, -, -, hend⟩ :=
    traverseExecutive_visits skipFirst (fun _ _ => rfl) hasc hkeyed (by decide +kernel) ()
  obtain ⟨⟨v, hv, hhint, hnone⟩, -⟩ | ⟨states', s', hrun, -, hperm, -⟩ := hend
  · -- only the last node is answered `UPDATE`, and it has its message
    have hmessages : ∀ v ∈ traverseVisits (noThrow skipFirst)
        [stateOf "a" 0, stateOf "a" 1, stateOf "b" 2] () {}, v.after.message ≠ none := by
      decide +kernel
    exact absurd hnone (hmessages v hv)
  have hun : unvisited [stateOf "a" 0, stateOf "a" 1, stateOf "b" 2]
      (traverseVisits (noThrow skipFirst) [stateOf "a" 0, stateOf "a" 1, stateOf "b" 2] () {})
        = [stateOf "a" 1] := by
    decide +kernel
  rw [hun] at hperm
  exact ⟨states', s', _, hrun, by decide +kernel, hun, hperm⟩

/-- Take the message out and file the state again. -/
def fileEmpty (_ : Unit) (state : ExecutiveState) : TraverseHint × Unit × ExecutiveState :=
  (.UPDATE, (), { state with message := none })

/-- The key of a state that is filed again without its message is read from a null
pointer. -/
theorem traverseExecutive_reads_null : ¬ ∀ (act : Unit → ExecutiveState →
      TraverseHint × Unit × ExecutiveState) (states : List Node),
    (∀ s state, (act s state).2.2.contextID = state.contextID) → OrderedMap.Ascending states →
    KeyedByContext states → (contexts states).Nodup →
    ∃ states' s', traverseExecutive (noThrow act) states () = .ok (states', s') := by
  intro hclaim
  have hasc : OrderedMap.Ascending [stateOf "a" 0] := List.pairwise_singleton _ _
  have hkeyed : KeyedByContext [stateOf "a" 0] := by
    unfold KeyedByContext
    decide +kernel
  obtain ⟨states', s', hrun⟩ := hclaim fileEmpty [stateOf "a" 0] (fun _ _ => rfl) hasc hkeyed
    (by decide +kernel)
  have hfault : traverseExecutive (noThrow fileEmpty) [stateOf "a" 0] ()
      = .error .nullMessage := rfl
  rw [hfault] at hrun
  cases hrun

end Map

end BcosScheduler
