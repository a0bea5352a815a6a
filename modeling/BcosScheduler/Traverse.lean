/-
BcosScheduler/Traverse.lean

Facts about `traverseExecutive` for an arbitrary callback.

A traversal can be cut after any visit (`traverseFrom_cons`), what every visit
keeps the whole traversal keeps (`traverseFrom_induction`), and nodes behind
the cursor play no part in it (`traverseStep_visited`).  The nodes a pass acts
on are those it neither jumps over nor finds marked with `skip`; `Marked` says
which these are, in terms of the marks only, so that two traversals over the
same nodes can be compared.
-/
import BcosScheduler.Executive

namespace BcosScheduler

section Loop

variable {σ : Type*} {callback : TraverseCallback σ}

/-- What one turn of the loop can do. -/
theorem traverseStep_cases {n : Node} {rest rest' : List Node} {s s' : σ} {c c' : Cursor}
    (h : traverseStep callback n rest s c = .ok (s', c', rest')) :
    (c.jumps n = true ∧ s' = s ∧ c' = c.keep n ∧ rest' = rest) ∨
    c.jumps n = false ∧ ∃ hint state, callback s n.2 = .ok (hint, s', state) ∧
      (c', rest') = c.advance hint (n.1, state) rest := by
  unfold traverseStep at h
  split at h
  next hj =>
    simp only [Except.ok.injEq, Prod.mk.injEq] at h
    exact Or.inl ⟨hj, h.1.symm, h.2.1.symm, h.2.2.symm⟩
  next hj =>
    refine Or.inr ⟨Bool.not_eq_true _ ▸ hj, ?_⟩
    split at h
    next => cases h
    next hint s₁ state hcall =>
      simp only [Except.ok.injEq, Prod.mk.injEq] at h
      obtain ⟨rfl, hc, hr⟩ := h
      exact ⟨hint, state, hcall, by rw [← hc, ← hr]⟩

theorem advance_rest (c : Cursor) (hint : TraverseHint) (n : Node) (rest : List Node) :
    (c.advance hint n rest).2 = rest ∨ (c.advance hint n rest).2 = [] := by
  cases hint <;> simp [Cursor.advance]

/-- Where the nodes behind come from. -/
theorem mem_advance_visited {c : Cursor} {n : Node} {rest : List Node} {hint : TraverseHint} {k : Node}
    (h : k ∈ (c.advance hint n rest).1.visited) : k ∈ c.visited ∨ k = n ∨ k ∈ rest := by
  cases hint <;> simp only [Cursor.advance, Cursor.keep, List.mem_append, List.mem_cons,
    List.not_mem_nil, or_false] at h <;> tauto

/-- What held of the nodes still holds, if it holds of the visited state. -/
theorem advance_states {c : Cursor} {n : Node} {rest : List Node} {P : ExecutiveState → Prop}
    (h : ∀ k ∈ c.visited ++ n :: rest, P k.2) {state : ExecutiveState} (hstate : P state)
    (hint : TraverseHint) :
    ∀ k ∈ (c.advance hint (n.1, state) rest).1.visited ++ (c.advance hint (n.1, state) rest).2,
      P k.2 := by
  have hold : ∀ k, k ∈ c.visited ∨ k = (n.1, state) ∨ k ∈ rest → P k.2 := by
    rintro k (hk | rfl | hk)
    · exact h k (by simp [hk])
    · exact hstate
    · exact h k (by simp [hk])
  intro k hk
  apply hold k
  cases hint <;>
    simp only [Cursor.advance, Cursor.keep, List.mem_append, List.mem_cons, List.not_mem_nil,
      or_false] at hk <;> tauto

theorem traverseStep_rest {n : Node} {rest rest' : List Node} {s s' : σ} {c c' : Cursor}
    (h : traverseStep callback n rest s c = .ok (s', c', rest')) : rest' = rest ∨ rest' = [] := by
  rcases traverseStep_cases h with ⟨-, -, -, rfl⟩ | ⟨-, hint, state, -, heq⟩
  · exact Or.inl rfl
  · have := advance_rest c hint (n.1, state) rest
    rw [← heq] at this
    exact this

/-- The loop goes on from where one turn has left it. -/
theorem traverseFrom_cons (n : Node) (rest : List Node) (s : σ) (c : Cursor) :
    traverseFrom callback (n :: rest) s c =
      match traverseStep callback n rest s c with
      | .error f => .error f
      | .ok (s', c', rest') => traverseFrom callback rest' s' c' := by
  rw [traverseFrom]
  rcases h : traverseStep callback n rest s c with f | ⟨s', c', _ | ⟨n', rest'⟩⟩
  · rfl
  · rfl
  · rcases traverseStep_rest h with hr | hr
    · simp only [hr]
    · cases hr

/-- What one turn keeps, the loop keeps. -/
theorem traverseFrom_induction {P : σ → Cursor → List Node → Prop}
    (hstep : ∀ {s c n rest s' c' rest'}, P s c (n :: rest) →
      traverseStep callback n rest s c = .ok (s', c', rest') → P s' c' rest')
    {todo : List Node} : ∀ {s : σ} {c : Cursor} {s' : σ} {c' : Cursor}, P s c todo →
      traverseFrom callback todo s c = .ok (s', c') → P s' c' [] := by
  induction todo with
  | nil =>
      intro s c s' c' h heq
      simp only [traverseFrom, Except.ok.injEq, Prod.mk.injEq] at heq
      rw [← heq.1, ← heq.2]
      exact h
  | cons n rest ih =>
      intro s c s' c' h heq
      rw [traverseFrom_cons] at heq
      rcases ht : traverseStep callback n rest s c with f | ⟨s₁, c₁, rest₁⟩
      · rw [ht] at heq
        cases heq
      · rw [ht] at heq
        have hp := hstep h ht
        rcases traverseStep_rest ht with rfl | rfl
        · exact ih hp heq
        · simp only [traverseFrom, Except.ok.injEq, Prod.mk.injEq] at heq
          rw [← heq.1, ← heq.2]
          exact hp

/-- If no turn from a good state can fail, the loop does not fail. -/
theorem traverseFrom_ok {P : σ → Cursor → List Node → Prop}
    (hok : ∀ {s c n rest}, P s c (n :: rest) →
      ∃ r, traverseStep callback n rest s c = .ok r)
    (hstep : ∀ {s c n rest s' c' rest'}, P s c (n :: rest) →
      traverseStep callback n rest s c = .ok (s', c', rest') → P s' c' rest')
    {todo : List Node} : ∀ {s : σ} {c : Cursor}, P s c todo →
      ∃ r, traverseFrom callback todo s c = .ok r := by
  induction todo with
  | nil => exact fun _ => ⟨_, rfl⟩
  | cons n rest ih =>
      intro s c h
      obtain ⟨⟨s₁, c₁, rest₁⟩, ht⟩ := hok h
      rw [traverseFrom_cons, ht]
      rcases traverseStep_rest ht with rfl | rfl
      · exact ih (hstep h ht)
      · exact ⟨_, rfl⟩

/-- A turn fails where its callback does. -/
theorem traverseStep_error {n : Node} {rest : List Node} {s : σ} {c : Cursor} {f : Fault}
    (h : traverseStep callback n rest s c = .error f) : callback s n.2 = .error f := by
  unfold traverseStep at h
  split_ifs at h
  rcases hcall : callback s n.2 with f' | r
  · rw [hcall] at h
    cases h
    rfl
  · rw [hcall] at h
    cases h

/-- The loop fails where its callback does, on a node that was ahead. -/
theorem traverseFrom_error {f : Fault} {todo : List Node} : ∀ {s : σ} {c : Cursor},
    traverseFrom callback todo s c = .error f →
      ∃ n ∈ todo, ∃ s, callback s n.2 = .error f := by
  induction todo with
  | nil =>
      intro s c h
      cases h
  | cons n rest ih =>
      intro s c h
      rw [traverseFrom_cons] at h
      rcases ht : traverseStep callback n rest s c with f' | ⟨s₁, c₁, rest₁⟩
      · rw [ht] at h
        cases h
        exact ⟨n, by simp, s, traverseStep_error ht⟩
      · rw [ht] at h
        rcases traverseStep_rest ht with rfl | rfl
        · obtain ⟨k, hk, hcall⟩ := ih h
          exact ⟨k, List.mem_cons_of_mem n hk, hcall⟩
        · cases h

/-- Behind the loop the extracted nodes are put back, or one of them has no message. -/
theorem traverseExecutive_cases {states : List Node} {s s' : σ} {c : Cursor}
    (hfrom : traverseFrom callback states s {} = .ok (s', c)) :
    ((∀ n ∈ c.updateNodes, n.2.message ≠ none) ∧
      traverseExecutive callback states s = .ok (reinsert c.updateNodes c.visited, s')) ∨
    (∃ n ∈ c.updateNodes, n.2.message = none) ∧
      traverseExecutive callback states s = .error .nullMessage := by
  unfold traverseExecutive
  rw [hfrom]
  by_cases hall : (c.updateNodes.all fun n => n.2.message.isSome) = true
  · refine Or.inl ⟨fun n hn => ?_, if_pos hall⟩
    exact Option.isSome_iff_ne_none.mp (List.all_eq_true.mp hall n hn)
  · refine Or.inr ⟨?_, if_neg hall⟩
    obtain ⟨n, hn, hnone⟩ := List.all_eq_false.mp (Bool.not_eq_true _ ▸ hall)
    exact ⟨n, hn, by simpa using hnone⟩

/-- A traversal that ends has put the extracted nodes back. -/
theorem traverseExecutive_ok {states states' : List Node} {s s' : σ}
    (h : traverseExecutive callback states s = .ok (states', s')) :
    ∃ c, traverseFrom callback states s {} = .ok (s', c) ∧
      states' = reinsert c.updateNodes c.visited := by
  rcases hfrom : traverseFrom callback states s {} with f | ⟨s₁, c⟩
  · rw [traverseExecutive, hfrom] at h
    cases h
  · rcases traverseExecutive_cases hfrom with ⟨-, heq⟩ | ⟨-, heq⟩
    · rw [heq] at h
      obtain ⟨rfl, rfl⟩ := Prod.mk.inj (Except.ok.inj h)
      exact ⟨c, rfl, rfl⟩
    · rw [heq] at h
      cases h

variable (callback) in
/-- States are extracted with a message only. -/
def UpdatesMessages : Prop :=
  ∀ s state s' state', callback s state = .ok (.UPDATE, s', state') → state'.message ≠ none

theorem traverseStep_updateNodes (hupdates : UpdatesMessages callback) {n : Node}
    {rest rest' : List Node} {s s' : σ} {c c' : Cursor}
    (hc : ∀ k ∈ c.updateNodes, k.2.message ≠ none)
    (h : traverseStep callback n rest s c = .ok (s', c', rest')) :
    ∀ k ∈ c'.updateNodes, k.2.message ≠ none := by
  rcases traverseStep_cases h with ⟨-, -, rfl, -⟩ | ⟨-, hint, state, hcall, heq⟩
  · exact hc
  · obtain rfl : c' = (c.advance hint (n.1, state) rest).1 := congrArg Prod.fst heq
    cases hint with
    | UPDATE => exact List.forall_mem_cons.mpr ⟨hupdates _ _ _ _ hcall, hc⟩
    | PASS => exact hc
    | DELETE => exact hc
    | SKIP => exact hc
    | END => exact hc

/-- With such a callback all extracted nodes are put back. -/
theorem traverseExecutive_eq (hupdates : UpdatesMessages callback) (states : List Node) (s : σ) :
    traverseExecutive callback states s
      = (traverseFrom callback states s {}).map fun r =>
          (reinsert r.2.updateNodes r.2.visited, r.1) := by
  rcases hfrom : traverseFrom callback states s {} with f | ⟨s', c⟩
  · rw [traverseExecutive, hfrom]
    rfl
  · have hmessages := traverseFrom_induction
      (P := fun _ c _ => ∀ k ∈ c.updateNodes, k.2.message ≠ none)
      (traverseStep_updateNodes hupdates) (by simp) hfrom
    rcases traverseExecutive_cases hfrom with ⟨-, heq⟩ | ⟨⟨k, hk, hnone⟩, -⟩
    · exact heq
    · exact absurd hnone (hmessages k hk)

/-- The nodes behind the cursor play no part in a turn. -/
theorem traverseStep_visited {n : Node} {rest rest' : List Node} {s s' : σ} {c c' : Cursor}
    (h : traverseStep callback n rest s c = .ok (s', c', rest')) :
    ∃ added, c'.visited = c.visited ++ added ∧ ∀ visited,
      traverseStep callback n rest s { c with visited := visited }
        = .ok (s', { c' with visited := visited ++ added }, rest') := by
  rcases traverseStep_cases h with ⟨hj, rfl, rfl, rfl⟩ | ⟨hj, hint, state, hcall, heq⟩
  · refine ⟨[n], rfl, fun visited => ?_⟩
    have hj' : Cursor.jumps { c with visited := visited } n = true := hj
    simp only [traverseStep, hj', if_true]
    rfl
  · have hj' : ∀ visited, Cursor.jumps { c with visited := visited } n = false := fun _ => hj
    cases hint <;> simp only [Cursor.advance, Cursor.keep, Prod.mk.injEq] at heq <;>
      obtain ⟨rfl, rfl⟩ := heq
    case PASS | SKIP =>
      exact ⟨[(n.1, state)], rfl, fun v => by
        simp [traverseStep, hj', hcall, Cursor.advance, Cursor.keep]⟩
    case DELETE | UPDATE =>
      exact ⟨[], by simp, fun v => by simp [traverseStep, hj', hcall, Cursor.advance]⟩
    case END =>
      exact ⟨(n.1, state) :: rest, rfl, fun v => by
        simp [traverseStep, hj', hcall, Cursor.advance]⟩

/-- A turn leaves the keys of the map in order. -/
theorem traverseStep_keys {n : Node} {rest rest' : List Node} {s s' : σ} {c c' : Cursor}
    (h : traverseStep callback n rest s c = .ok (s', c', rest')) :
    ((c'.visited ++ rest').map Prod.fst).Sublist ((c.visited ++ n :: rest).map Prod.fst) := by
  rcases traverseStep_cases h with ⟨-, -, rfl, rfl⟩ | ⟨-, hint, state, -, heq⟩
  · simp [Cursor.keep]
  · cases hint <;> cases heq <;> simp [Cursor.keep]

theorem traverseStep_error_visited {n : Node} {rest : List Node} {s : σ} {c : Cursor}
    {f : Fault} (h : traverseStep callback n rest s c = .error f) (visited : List Node) :
    traverseStep callback n rest s { c with visited := visited } = .error f := by
  unfold traverseStep at h ⊢
  split at h
  · cases h
  next hj =>
    have hj' : ¬ Cursor.jumps { c with visited := visited } n = true := hj
    rw [if_neg hj']
    split at h
    next => exact h
    next => cases h

end Loop

/-! ### Marked nodes -/

/-- The position `upper_bound` jumps to from a skipped node. -/
def skipBound (n : Node) : Option StateKey := some (toLex ((ofLex n.1).1, INT64_MAX))

/-- `Marked b nodes active b'`: a pass that comes with the bound `b` to `nodes`
acts on `active` and leaves with the bound `b'`.  Nodes it jumps over carry no
mark. -/
inductive Marked : Option StateKey → List Node → List Node → Option StateKey → Prop
  | nil {b : Option StateKey} : Marked b [] [] b
  | jump {b b' : Option StateKey} {n : Node} {nodes active : List Node} :
      Cursor.jumps { bound := b } n = true → n.2.skip = false →
      Marked b nodes active b' → Marked b (n :: nodes) active b'
  | skip {b b' : Option StateKey} {n : Node} {nodes active : List Node} :
      Cursor.jumps { bound := b } n = false → n.2.skip = true →
      Marked (skipBound n) nodes active b' → Marked b (n :: nodes) active b'
  | act {b b' : Option StateKey} {n : Node} {nodes active : List Node} :
      Cursor.jumps { bound := b } n = false → n.2.skip = false →
      Marked b nodes active b' → Marked b (n :: nodes) (n :: active) b'

namespace Marked

variable {b b' b'' : Option StateKey} {nodes nodes' active active' : List Node} {n : Node}

theorem append (h : Marked b nodes active b') (h' : Marked b' nodes' active' b'') :
    Marked b (nodes ++ nodes') (active ++ active') b'' := by
  induction h with
  | nil => exact h'
  | jump hj hs _ ih => exact .jump hj hs (ih h')
  | skip hj hs _ ih => exact .skip hj hs (ih h')
  | act hj hs _ ih => exact .act hj hs (ih h')

/-- Marks and keys are all that counts. -/
theorem map (h : Marked b nodes active b') {f : Node → Node} (hkey : ∀ n, (f n).1 = n.1)
    (hskip : ∀ n, (f n).2.skip = n.2.skip) : Marked b (nodes.map f) (active.map f) b' := by
  have hjumps : ∀ (b : Option StateKey) n,
      Cursor.jumps { bound := b } (f n) = Cursor.jumps { bound := b } n := by
    intro b n
    simp [Cursor.jumps, hkey]
  induction h with
  | nil => exact .nil
  | jump hj hs _ ih => exact .jump (by rw [hjumps]; exact hj) (by rw [hskip]; exact hs) ih
  | @skip b b' n nodes active hj hs _ ih =>
      refine .skip (by rw [hjumps]; exact hj) (by rw [hskip]; exact hs) ?_
      rw [skipBound, hkey]
      exact ih
  | act hj hs _ ih => exact .act (by rw [hjumps]; exact hj) (by rw [hskip]; exact hs) ih

theorem subset (h : Marked b nodes active b') : active.Sublist nodes := by
  induction h with
  | nil => exact List.Sublist.slnil
  | jump _ _ _ ih => exact ih.cons _
  | skip _ _ _ ih => exact ih.cons _
  | act _ _ _ ih => exact ih.cons_cons _

/-- Without a bound in the end nothing was marked. -/
theorem unmarked (h : Marked b nodes active b') (hb : b' = none) :
    b = none ∧ active = nodes ∧ ∀ n ∈ nodes, n.2.skip = false := by
  induction h with
  | nil => exact ⟨hb, rfl, by simp⟩
  | jump hj _ _ ih =>
      obtain ⟨rfl, -, -⟩ := ih hb
      simp [Cursor.jumps] at hj
  | skip _ _ _ ih =>
      obtain ⟨hnone, -, -⟩ := ih hb
      simp [skipBound] at hnone
  | act _ hs _ ih =>
      obtain ⟨hnone, rfl, hall⟩ := ih hb
      exact ⟨hnone, rfl, List.forall_mem_cons.mpr ⟨hs, hall⟩⟩

end Marked

/-! ### Passes -/

/-- Take the mark off a node. -/
def unskip (n : Node) : Node := (n.1, { n.2 with skip := false })

theorem unskip_of_unmarked {n : Node} (h : n.2.skip = false) : unskip n = n := by
  rcases n with ⟨key, state⟩
  cases state
  simp_all [unskip]

/-- What is left to do in a pass: the callback still acts on `active`, and the
nodes ahead and behind are those of `start`, without marks behind. -/
def PassAt {σ : Type*} (J : σ → List Node → Prop) (start : List Node) (s : σ) (c : Cursor)
    (todo : List Node) : Prop :=
  ∃ active b, Marked c.bound todo active b ∧ J s active ∧
    (c.updateNodes ++ c.visited ++ todo.map unskip).Perm (start.map unskip)

/-- One turn of a pass whose callback clears marks and, on a node without mark,
changes only the data of the pass. -/
theorem PassAt.step {σ : Type*} {callback : TraverseCallback σ} {J : σ → List Node → Prop}
    (hskip : ∀ s state, state.skip = true →
      callback s state = .ok (.SKIP, s, { state with skip := false }))
    (hact : ∀ {s n active hint s' state}, n.2.skip = false → J s (n :: active) →
      callback s n.2 = .ok (hint, s', state) →
      (hint = .PASS ∨ hint = .UPDATE) ∧ state = n.2 ∧ J s' active)
    {start : List Node} {s s' : σ} {c c' : Cursor} {n : Node} {rest rest' : List Node}
    (h : PassAt J start s c (n :: rest))
    (hstep : traverseStep callback n rest s c = .ok (s', c', rest')) :
    PassAt J start s' c' rest' := by
  obtain ⟨active, b, hm, hJ, hperm⟩ := h
  -- the order of the nodes when this one is left behind without mark
  have hkept : (c.updateNodes ++ (c.visited ++ [unskip n]) ++ rest.map unskip).Perm
      (start.map unskip) := by simpa using hperm
  rcases traverseStep_cases hstep with ⟨hj, rfl, rfl, rfl⟩ | ⟨hj, hint, state, hcall, heq⟩
  · cases hm with
    | jump _ hs hm =>
        rw [unskip_of_unmarked hs] at hkept
        exact ⟨active, b, hm, hJ, hkept⟩
    | skip hj' => exact absurd (hj.symm.trans hj') (by simp)
    | act hj' => exact absurd (hj.symm.trans hj') (by simp)
  · cases hm with
    | jump hj' => exact absurd (hj'.symm.trans hj) (by simp)
    | skip _ hs hm =>
        rw [hskip s n.2 hs] at hcall
        cases hcall
        cases heq
        exact ⟨active, b, hm, hJ, hkept⟩
    | @act _ _ _ _ active' _ hs hm =>
        obtain ⟨hhint, rfl, hJ'⟩ := hact hs hJ hcall
        rw [unskip_of_unmarked hs] at hkept
        rcases hhint with rfl | rfl
        · cases heq
          exact ⟨active', b, hm, hJ', hkept⟩
        · -- an extracted node is put aside, to be filed again after the loop
          cases heq
          refine ⟨active', b, hm, hJ', List.Perm.trans ?_ hkept⟩
          simp only [List.append_assoc, List.cons_append, List.nil_append]
          rw [← List.append_assoc, ← List.append_assoc]
          exact List.perm_middle.symm

/-! ### Contexts -/

/-- The contexts of a list of nodes. -/
def contexts (nodes : List Node) : List ContextID := nodes.map fun n => n.2.contextID

theorem contexts_append (a b : List Node) : contexts (a ++ b) = contexts a ++ contexts b := by
  simp [contexts]

/-- Every node is filed under the context of its state. -/
def KeyedByContext (nodes : List Node) : Prop := ∀ n ∈ nodes, (ofLex n.1).2 = n.2.contextID

/-- With distinct contexts no node is lost when the extracted ones are put
back. -/
theorem reinsert_perm (updateNodes : List Node) : ∀ {nodes : List Node},
    KeyedByContext nodes → (contexts (updateNodes ++ nodes)).Nodup →
    (reinsert updateNodes nodes).Perm
      (updateNodes.map (fun n => (n.2.updateKey, n.2)) ++ nodes) := by
  induction updateNodes with
  | nil => exact fun _ _ => List.Perm.refl _
  | cons n rest ih =>
      intro nodes hkeys hnodup
      simp only [contexts, List.cons_append, List.map_cons, List.nodup_cons, List.mem_map,
        List.mem_append, not_exists, not_and] at hnodup
      obtain ⟨hnew, hnodup⟩ := hnodup
      -- the new key holds the context, which no other node has
      have habsent : ∀ e ∈ nodes, e.1 ≠ n.2.updateKey := by
        intro e he heq
        have hctx := hkeys e he
        rw [heq] at hctx
        exact hnew e (Or.inr he) hctx.symm
      have hperm := OrderedMap.emplace_perm (v := n.2) habsent
      have hrest := @ih (OrderedMap.emplace n.2.updateKey n.2 nodes) ?_ ?_
      · apply hrest.trans
        apply (hperm.append_left _).trans
        exact List.perm_middle
      · intro e he
        rcases List.mem_cons.mp (hperm.mem_iff.mp he) with rfl | he
        · rfl
        · exact hkeys e he
      · apply (List.Perm.nodup_iff ((hperm.append_left rest).map _)).mpr
        apply (List.Perm.nodup_iff (List.perm_middle.map _)).mpr
        simp only [List.map_cons, List.nodup_cons, List.mem_map, List.mem_append, not_exists,
          not_and]
        exact ⟨hnew, hnodup⟩

/-- A turn that keeps the context moves its node, or lets it go. -/
theorem traverseStep_contexts {σ : Type*} {callback : TraverseCallback σ}
    (hcall : ∀ {s state hint s' state'}, callback s state = .ok (hint, s', state') →
      state'.contextID = state.contextID)
    {n : Node} {rest rest' : List Node} {s s' : σ} {c c' : Cursor}
    (hkeys : KeyedByContext (c.visited ++ n :: rest))
    (h : traverseStep callback n rest s c = .ok (s', c', rest')) :
    KeyedByContext (c'.visited ++ rest') ∧ ∃ gone,
      (contexts (gone ++ (c'.updateNodes ++ c'.visited ++ rest'))).Perm
        (contexts (c.updateNodes ++ c.visited ++ n :: rest)) ∧
      (gone ≠ [] → ∃ s' state', callback s n.2 = .ok (.DELETE, s', state')) := by
  have hn := hkeys n (by simp)
  rcases traverseStep_cases h with ⟨-, rfl, rfl, rfl⟩ | ⟨-, hint, state, hc, heq⟩
  · exact ⟨by simpa [Cursor.keep] using hkeys, [], by simp [Cursor.keep], fun hne => absurd rfl hne⟩
  · have hctx := hcall hc
    have hkept : KeyedByContext (c.visited ++ (n.1, state) :: rest) := by
      intro m hm
      rcases List.mem_append.mp hm with hm | hm
      · exact hkeys m (by simp [hm])
      · rcases List.mem_cons.mp hm with rfl | hm
        · rw [hctx]
          exact hn
        · exact hkeys m (by simp [hm])
    have hless : KeyedByContext (c.visited ++ rest) := by
      intro m hm
      apply hkeys m
      simp only [List.mem_append, List.mem_cons] at hm ⊢
      tauto
    have hsame : contexts (c.updateNodes ++ c.visited ++ (n.1, state) :: rest)
        = contexts (c.updateNodes ++ c.visited ++ n :: rest) := by
      simp [contexts, hctx]
    rw [← hsame]
    have hmiddle : (contexts ((n.1, state) :: (c.updateNodes ++ c.visited ++ rest))).Perm
        (contexts (c.updateNodes ++ c.visited ++ (n.1, state) :: rest)) :=
      List.Perm.map _ List.perm_middle.symm
    cases hint with
    | DELETE =>
        cases heq
        exact ⟨hless, [(n.1, state)], hmiddle, fun _ => ⟨s', state, hc⟩⟩
    | UPDATE =>
        cases heq
        exact ⟨hless, [], hmiddle, fun hne => absurd rfl hne⟩
    | PASS =>
        cases heq
        exact ⟨by simpa [Cursor.keep] using hkept, [], by simp [Cursor.keep],
          fun hne => absurd rfl hne⟩
    | SKIP =>
        cases heq
        exact ⟨by simpa [Cursor.keep] using hkept, [], by simp [Cursor.keep],
          fun hne => absurd rfl hne⟩
    | END =>
        cases heq
        exact ⟨by simpa using hkept, [], by simp, fun hne => absurd rfl hne⟩

/-- A traversal that keeps contexts has all of them behind it in the end, but for
those it let go. -/
theorem traverseFrom_gone {σ : Type*} {callback : TraverseCallback σ}
    (hcall : ∀ {s state hint s' state'}, callback s state = .ok (hint, s', state') →
      state'.contextID = state.contextID)
    {states : List Node} (hkeyed : KeyedByContext states) {s s' : σ} {c' : Cursor}
    (h : traverseFrom callback states s {} = .ok (s', c')) :
    KeyedByContext c'.visited ∧ ∃ gone,
      (contexts (gone ++ (c'.updateNodes ++ c'.visited))).Perm (contexts states) ∧
      (gone ≠ [] → ∃ s state s' state', callback s state = .ok (.DELETE, s', state')) := by
  have main := traverseFrom_induction
    (P := fun _ c todo => KeyedByContext (c.visited ++ todo) ∧ ∃ gone,
      (contexts (gone ++ (c.updateNodes ++ c.visited ++ todo))).Perm (contexts states) ∧
      (gone ≠ [] → ∃ s state s' state', callback s state = .ok (.DELETE, s', state'))) ?_
    (s := s) (c := {}) ⟨by simpa using hkeyed, [], by simp, fun hne => absurd rfl hne⟩ h
  · simpa using main
  · rintro s c n rest s' c' rest' ⟨hkeys, gone, hperm, hdel⟩ hstep
    obtain ⟨hkeys', more, hmore, hdel'⟩ := traverseStep_contexts hcall hkeys hstep
    refine ⟨hkeys', gone ++ more, ?_, fun hne => ?_⟩
    · refine List.Perm.trans ?_ hperm
      simp only [contexts, List.map_append, List.append_assoc] at hmore ⊢
      exact hmore.append_left _
    · rcases more with _ | ⟨k, more⟩
      · exact hdel (by simpa using hne)
      · obtain ⟨s₁, state₁, hc⟩ := hdel' (by simp)
        exact ⟨s, n.2, s₁, state₁, hc⟩

/-- A traversal that keeps contexts and deletes nothing has the same contexts
behind it in the end. -/
theorem traverseFrom_contexts {σ : Type*} {callback : TraverseCallback σ}
    (hcall : ∀ {s state hint s' state'}, callback s state = .ok (hint, s', state') →
      state'.contextID = state.contextID ∧ hint ≠ .DELETE)
    {states : List Node} (hkeyed : KeyedByContext states) {s s' : σ} {c' : Cursor}
    (h : traverseFrom callback states s {} = .ok (s', c')) :
    (contexts (c'.updateNodes ++ c'.visited)).Perm (contexts states) ∧
      KeyedByContext c'.visited := by
  obtain ⟨hkeys, gone, hperm, hdel⟩ := traverseFrom_gone (fun hc => (hcall hc).1) hkeyed h
  rcases gone with _ | ⟨k, gone⟩
  · exact ⟨hperm, hkeys⟩
  · obtain ⟨s, state, s', state', hc⟩ := hdel (by simp)
    exact absurd rfl (hcall hc).2

theorem traverseExecutive_contexts {σ : Type*} {callback : TraverseCallback σ}
    (hcall : ∀ {s state hint s' state'}, callback s state = .ok (hint, s', state') →
      state'.contextID = state.contextID ∧ hint ≠ .DELETE)
    {states states' : List Node} (hkeyed : KeyedByContext states)
    (hnodup : (contexts states).Nodup) {s s' : σ}
    (h : traverseExecutive callback states s = .ok (states', s')) :
    (contexts states').Perm (contexts states) ∧ KeyedByContext states' := by
  obtain ⟨c, hfrom, rfl⟩ := traverseExecutive_ok h
  obtain ⟨hperm, hkeys⟩ := traverseFrom_contexts hcall hkeyed hfrom
  have hput := reinsert_perm c.updateNodes hkeys (hperm.nodup_iff.mpr hnodup)
  constructor
  · refine List.Perm.trans (hput.map _) (List.Perm.trans ?_ hperm)
    simp [contexts, Function.comp_def]
  · intro n hn
    rcases List.mem_append.mp (hput.mem_iff.mp hn) with hn | hn
    · obtain ⟨m, -, rfl⟩ := List.mem_map.mp hn
      rfl
    · exact hkeys n hn

/-- Nodes put back keep their states. -/
theorem mem_reinsert (updateNodes : List Node) : ∀ {nodes : List Node} {n : Node},
    n ∈ reinsert updateNodes nodes →
      n ∈ nodes ∨ ∃ k ∈ updateNodes, n = (k.2.updateKey, k.2) := by
  induction updateNodes with
  | nil => exact fun h => Or.inl h
  | cons u rest ih =>
      intro nodes n h
      have h' : n ∈ reinsert rest (OrderedMap.emplace u.2.updateKey u.2 nodes) := h
      rcases ih h' with hmem | ⟨k, hk, heq⟩
      · rcases OrderedMap.mem_of_mem_emplace hmem with rfl | hmem
        · exact Or.inr ⟨u, by simp, rfl⟩
        · exact Or.inl hmem
      · exact Or.inr ⟨k, List.mem_cons_of_mem _ hk, heq⟩

/-- What the callback keeps of every node, also under its new key, a pass keeps. -/
theorem traverseExecutive_nodes {σ : Type*} {callback : TraverseCallback σ} {P : Node → Prop}
    (hcall : ∀ {s n hint s' state}, P n → callback s n.2 = .ok (hint, s', state) →
      P (n.1, state) ∧ (hint = .UPDATE → P (state.updateKey, state)))
    {states states' : List Node} (hstates : ∀ n ∈ states, P n) {s s' : σ}
    (h : traverseExecutive callback states s = .ok (states', s')) : ∀ n ∈ states', P n := by
  obtain ⟨c, hfrom, rfl⟩ := traverseExecutive_ok h
  have main := traverseFrom_induction
    (P := fun _ c todo => (∀ n ∈ c.visited ++ todo, P n) ∧
      ∀ n ∈ c.updateNodes, P (n.2.updateKey, n.2)) ?_ (s := s) (c := {})
    ⟨by simpa using hstates, by simp⟩ hfrom
  · intro n hn
    rcases mem_reinsert _ hn with hn | ⟨k, hk, rfl⟩
    · exact main.1 n (by simp [hn])
    · exact main.2 k hk
  · rintro s c n rest s' c' rest' ⟨hall, hupdate⟩ hstep
    rcases traverseStep_cases hstep with ⟨-, -, rfl, rfl⟩ | ⟨-, hint, state, hc, heq⟩
    · exact ⟨by simpa [Cursor.keep] using hall, hupdate⟩
    · obtain ⟨hstate, hnew⟩ := hcall (hall n (by simp)) hc
      have hold : ∀ k, k ∈ c.visited ∨ k = (n.1, state) ∨ k ∈ rest → P k := by
        rintro k (hk | rfl | hk)
        · exact hall k (by simp [hk])
        · exact hstate
        · exact hall k (by simp [hk])
      have hkept : ∀ k ∈ c'.visited ++ rest', P k := by
        intro k hk
        apply hold k
        cases hint <;> cases heq <;>
          simp only [Cursor.keep, List.mem_append, List.mem_cons, List.not_mem_nil, or_false]
            at hk <;> tauto
      refine ⟨hkept, fun k hk => ?_⟩
      cases hint with
      | UPDATE =>
          cases heq
          rcases List.mem_cons.mp hk with rfl | hk
          · exact hnew rfl
          · exact hupdate k hk
      | _ =>
          cases heq
          exact hupdate k hk

/-- What the callback keeps of every state, a pass keeps. -/
theorem traverseExecutive_states {σ : Type*} {callback : TraverseCallback σ}
    {P : ExecutiveState → Prop}
    (hcall : ∀ {s state hint s' state'}, P state → callback s state = .ok (hint, s', state') →
      P state')
    {states states' : List Node} (hstates : ∀ n ∈ states, P n.2) {s s' : σ}
    (h : traverseExecutive callback states s = .ok (states', s')) : ∀ n ∈ states', P n.2 :=
  traverseExecutive_nodes (P := fun n => P n.2)
    (fun hn hc => ⟨hcall hn hc, fun _ => hcall hn hc⟩) hstates h

/-- The map stays in ascending order. -/
theorem traverseExecutive_ascending {σ : Type*} {callback : TraverseCallback σ}
    {states states' : List Node} (hasc : OrderedMap.Ascending states) {s s' : σ}
    (h : traverseExecutive callback states s = .ok (states', s')) :
    OrderedMap.Ascending states' := by
  obtain ⟨c, hfrom, rfl⟩ := traverseExecutive_ok h
  have hvisited := traverseFrom_induction
    (P := fun _ c todo => OrderedMap.Ascending (c.visited ++ todo))
    (fun hc hstep => hc.of_keys (traverseStep_keys hstep)) (s := s) (c := {}) hasc hfrom
  rw [List.append_nil] at hvisited
  exact hvisited.foldl_emplace (fun n : Node => n.2.updateKey) Prod.snd c.updateNodes

/-- What the callback keeps of its data, a pass keeps. -/
theorem traverseExecutive_data {σ : Type*} {callback : TraverseCallback σ} {J : σ → Prop}
    (hcall : ∀ {s state hint s' state'}, J s → callback s state = .ok (hint, s', state') → J s')
    {states states' : List Node} {s s' : σ} (hs : J s)
    (h : traverseExecutive callback states s = .ok (states', s')) : J s' := by
  obtain ⟨c, hfrom, rfl⟩ := traverseExecutive_ok h
  refine traverseFrom_induction (P := fun s _ _ => J s) ?_ hs hfrom
  intro s c n rest s' c' rest' hJ hstep
  rcases traverseStep_cases hstep with ⟨-, rfl, -, -⟩ | ⟨-, hint, state, hc, -⟩
  · exact hJ
  · exact hcall hJ hc

/-- A whole pass whose callback clears marks and, on a node without mark, changes
only the data of the pass: it has acted on all active nodes, and the states are
those from before without marks. -/
theorem traverseExecutive_pass {σ : Type*} {callback : TraverseCallback σ}
    {J : σ → List Node → Prop}
    (hskip : ∀ s state, state.skip = true →
      callback s state = .ok (.SKIP, s, { state with skip := false }))
    (hact : ∀ {s n active hint s' state}, n.2.skip = false → J s (n :: active) →
      callback s n.2 = .ok (hint, s', state) →
      (hint = .PASS ∨ hint = .UPDATE) ∧ state = n.2 ∧ J s' active)
    {states states' active : List Node} {b : Option StateKey} (hkeyed : KeyedByContext states)
    (hnodup : (contexts states).Nodup) (hmarked : Marked none states active b) {s s' : σ}
    (hJ : J s active) (h : traverseExecutive callback states s = .ok (states', s')) :
    J s' [] ∧ (states'.map Prod.snd).Perm ((states.map unskip).map Prod.snd) := by
  obtain ⟨c, hfrom, rfl⟩ := traverseExecutive_ok h
  obtain ⟨active', b', hend, hJ', hperm⟩ := traverseFrom_induction
    (P := PassAt J states) (fun hp hs => hp.step hskip hact hs)
    (show PassAt J states s {} states from ⟨active, b, hmarked, hJ, by simp⟩) hfrom
  cases hend
  simp only [List.map_nil, List.append_nil] at hperm
  have hsame : contexts (states.map unskip) = contexts states := by
    simp [contexts, unskip]
  have hput := @reinsert_perm c.updateNodes c.visited ?_ ?_
  · refine ⟨hJ', (hput.map _).trans (List.Perm.trans ?_ (hperm.map _))⟩
    simp [Function.comp_def]
  · intro n hn
    obtain ⟨k, hk, rfl⟩ := List.mem_map.mp
      (hperm.mem_iff.mp (List.mem_append_right c.updateNodes hn))
    exact hkeyed k hk
  · apply (List.Perm.nodup_iff (hperm.map _)).mpr
    show (contexts (states.map unskip)).Nodup
    rw [hsame]
    exact hnodup

/-- Such a pass does not fail if its callback does not fail on the nodes it acts
on. -/
theorem traverseExecutive_pass_ok {σ : Type*} {callback : TraverseCallback σ}
    {J : σ → List Node → Prop} (hupdates : UpdatesMessages callback)
    (hskip : ∀ s state, state.skip = true →
      callback s state = .ok (.SKIP, s, { state with skip := false }))
    (hact : ∀ {s n active hint s' state}, n.2.skip = false → J s (n :: active) →
      callback s n.2 = .ok (hint, s', state) →
      (hint = .PASS ∨ hint = .UPDATE) ∧ state = n.2 ∧ J s' active)
    (hok : ∀ {s n active}, n.2.skip = false → J s (n :: active) → ∃ r, callback s n.2 = .ok r)
    {states active : List Node} {b : Option StateKey} (hmarked : Marked none states active b)
    {s : σ} (hJ : J s active) : ∃ r, traverseExecutive callback states s = .ok r := by
  obtain ⟨⟨s', c⟩, hfrom⟩ := traverseFrom_ok (P := PassAt J states)
    (fun {s c n rest} hp => by
      obtain ⟨active, b, hm, hJ, -⟩ := hp
      unfold traverseStep
      split_ifs with hj
      · exact ⟨_, rfl⟩
      · have hcall : ∃ r, callback s n.2 = .ok r := by
          cases hm with
          | jump hj' => exact absurd hj' hj
          | skip _ hs => exact ⟨_, hskip s n.2 hs⟩
          | act _ hs => exact hok hs hJ
        obtain ⟨⟨hint, s', state⟩, hr⟩ := hcall
        rw [hr]
        exact ⟨_, rfl⟩)
    (fun hp hs => hp.step hskip hact hs)
    (show PassAt J states s {} states from ⟨active, b, hmarked, hJ, by simp⟩)
  exact ⟨_, by rw [traverseExecutive_eq hupdates, hfrom]; rfl⟩

end BcosScheduler
