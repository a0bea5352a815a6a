/-
BcosScheduler/DispatchExecutor.lean

Concurrent calls of `dispatchExecutor` for a fixed set of executors.

A call looks the contract up outside the mutex and assigns it under the mutex,
and may be interrupted between the two; a failed `try_to_lock` sends it back
to the lookup.  Nothing is looked up again under the mutex, so a call can
assign a contract that another call has assigned since.  If every assignment
finds its contract unassigned, the calls agree; an assignment that does not
puts the contract into a second set or throws (`dispatchExecutor_agrees`).
-/
import BcosScheduler.ExecutorManager
import Mathlib.Logic.Relation
import Mathlib.Logic.Function.Basic

namespace BcosScheduler

namespace ExecutorManager

/-- Where a call of `dispatchExecutor` is. -/
inductive CallStage
  /-- Before the lookup in `m_contract2ExecutorInfo`. -/
  | looking
  /-- The lookup found nothing; the mutex is not yet taken. -/
  | missed
  | done (outcome : Outcome)
  deriving DecidableEq, Repr

/-- The manager and the calls made so far, by identity: contract and stage. -/
structure Dispatch where
  manager : ExecutorManager
  calls : Nat → Option (String × CallStage) := fun _ => none

namespace Dispatch

variable {s s' : Dispatch} {contract : String} {i j p : Nat}

/-- The state with call `i` at a new stage. -/
def setStage (s : Dispatch) (i : Nat) (contract : String) (stage : CallStage) : Dispatch :=
  { s with calls := Function.update s.calls i (some (contract, stage)) }

/-- `assign` by call `i`. -/
def assign (s : Dispatch) (i : Nat) (contract : String) : Dispatch :=
  { manager := (s.manager.assign contract).1
    calls := Function.update s.calls i
      (some (contract, .done (s.manager.assign contract).2)) }

/-- What call `i` does next. -/
inductive Action
  | call (contract : String)
  | find
  | tryLock
  | assign
  deriving DecidableEq, Repr

/-- One step of one call.  With no executor registered the source returns null
at once; the set of executors here is not empty. -/
inductive Step : Dispatch → Nat → Action → Dispatch → Prop
  | call {s : Dispatch} {i : Nat} (contract : String) : s.calls i = none →
      Step s i (.call contract) (s.setStage i contract .looking)
  | found {s : Dispatch} {i p : Nat} {contract : String} : s.calls i = some (contract, .looking) →
      s.manager.findContract contract = some p →
      Step s i .find (s.setStage i contract (.done (.returned (some (s.manager.info p).executor))))
  | missed {s : Dispatch} {i : Nat} {contract : String} : s.calls i = some (contract, .looking) →
      s.manager.findContract contract = none →
      Step s i .find (s.setStage i contract .missed)
  /-- `try_to_lock` failed. -/
  | retry {s : Dispatch} {i : Nat} {contract : String} : s.calls i = some (contract, .missed) →
      Step s i .tryLock (s.setStage i contract .looking)
  | assign {s : Dispatch} {i : Nat} {contract : String} : s.calls i = some (contract, .missed) →
      Step s i .assign (s.assign i contract)

/-- Steps of any calls in any order. -/
def Steps : Dispatch → Dispatch → Prop := Relation.ReflTransGen fun s s' => ∃ i a, Step s i a s'

/-- An assignment finds its contract unassigned. -/
def Fresh (s : Dispatch) (i : Nat) : Action → Prop
  | .assign => ∀ contract, s.calls i = some (contract, .missed) →
      s.manager.findContract contract = none
  | _ => True

def FreshSteps : Dispatch → Dispatch → Prop :=
  Relation.ReflTransGen fun s s' => ∃ i a, Step s i a s' ∧ s.Fresh i a

/-- The calls agree on the executors. -/
structure Agrees (s : Dispatch) : Prop where
  same : ∀ i j contract e e', s.calls i = some (contract, .done (.returned e)) →
    s.calls j = some (contract, .done (.returned e')) → e = e'
  oneSet : ∀ i contract outcome, s.calls i = some (contract, .done outcome) →
    ∃ p ∈ s.manager.executors, contract ∈ (s.manager.info p).contracts ∧
      ∀ q ∈ s.manager.executors, contract ∈ (s.manager.info q).contracts → q = p
  returns : ∀ i contract outcome, s.calls i = some (contract, .done outcome) →
    ∃ e, outcome = .returned (some e)
  queue : s.manager.executorPriorityQueue.Perm s.manager.executors

/-! ### Fresh assignments -/

/-- Every finished call returned the executor the map now names. -/
structure DispatchInv (s : Dispatch) : Prop where
  table : Inv s.manager
  nonempty : s.manager.name2Executors ≠ []
  finished : ∀ i contract outcome, s.calls i = some (contract, .done outcome) →
    ∃ p, s.manager.findContract contract = some p ∧
      outcome = .returned (some (s.manager.info p).executor)

theorem DispatchInv.agrees (h : DispatchInv s) : Agrees s where
  same := by
    intro i j contract e e' hi hj
    obtain ⟨p, hp, he⟩ := h.finished i contract _ hi
    obtain ⟨q, hq, he'⟩ := h.finished j contract _ hj
    obtain rfl : p = q := Option.some.inj (hp.symm.trans hq)
    exact Outcome.returned.inj (he.trans he'.symm)
  oneSet := by
    intro i contract outcome hi
    obtain ⟨p, hp, -⟩ := h.finished i contract outcome hi
    obtain ⟨hmem, hc⟩ := h.table.findContract_eq_some_iff.mp hp
    refine ⟨p, hmem, hc, fun q hq hcq => ?_⟩
    have hfind := h.table.findContract_eq_some_iff.mpr ⟨hq, hcq⟩
    exact Option.some.inj (hfind.symm.trans hp)
  returns := by
    intro i contract outcome hi
    obtain ⟨p, -, ho⟩ := h.finished i contract outcome hi
    exact ⟨_, ho⟩
  queue := h.table.queue

/-- A call that moves on without touching the manager. -/
theorem DispatchInv.setStage (h : DispatchInv s) {stage : CallStage}
    (hstage : ∀ outcome, stage = .done outcome → ∃ p, s.manager.findContract contract = some p ∧
      outcome = .returned (some (s.manager.info p).executor)) :
    DispatchInv (s.setStage i contract stage) where
  table := h.table
  nonempty := h.nonempty
  finished := by
    intro j c outcome hj
    by_cases hji : j = i
    · subst hji
      simp only [Dispatch.setStage, Function.update_self, Option.some.injEq, Prod.mk.injEq] at hj
      obtain ⟨rfl, hdone⟩ := hj
      exact hstage outcome hdone
    · simp only [Dispatch.setStage, Function.update_of_ne hji] at hj
      exact h.finished j c outcome hj

theorem DispatchInv.assign (h : DispatchInv s) (hnew : s.manager.findContract contract = none) :
    DispatchInv (s.assign i contract) := by
  obtain ⟨p, hp, htop⟩ := h.table.exists_top h.nonempty
  have heq := assign_eq htop (h.table.findContract_eq_none_iff.mp hnew p hp)
  obtain ⟨-, hexecutor, hkeep⟩ := h.table.assign_frame htop hnew
  have hown := h.table.findContract_assign htop hnew
  refine ⟨h.table.assign htop hnew, ?_, ?_⟩
  · show (s.manager.assign contract).1.name2Executors ≠ []
    rw [heq.2.2.1]
    exact h.nonempty
  · intro j c outcome hj
    show ∃ q, (s.manager.assign contract).1.findContract c = some q ∧
      outcome = .returned (some ((s.manager.assign contract).1.info q).executor)
    by_cases hji : j = i
    · subst hji
      simp only [Dispatch.assign, Function.update_self, Option.some.injEq, Prod.mk.injEq,
        CallStage.done.injEq] at hj
      obtain ⟨rfl, rfl⟩ := hj
      exact ⟨p, hown, by rw [hexecutor]; exact heq.1⟩
    · simp only [Dispatch.assign, Function.update_of_ne hji] at hj
      obtain ⟨q, hq, ho⟩ := h.finished j c outcome hj
      exact ⟨q, hkeep c q hq, by rw [hexecutor]; exact ho⟩

theorem Step.dispatchInv {a : Action} (hstep : Step s i a s') (hfresh : s.Fresh i a)
    (h : DispatchInv s) : DispatchInv s' := by
  cases hstep with
  | call contract _ => exact h.setStage fun outcome ho => by cases ho
  | @found p contract _ hfind =>
      apply h.setStage
      intro outcome ho
      cases ho
      exact ⟨p, hfind, rfl⟩
  | missed => exact h.setStage fun outcome ho => by cases ho
  | retry => exact h.setStage fun outcome ho => by cases ho
  | assign hmissed => exact h.assign (hfresh _ hmissed)

theorem FreshSteps.dispatchInv (hrun : FreshSteps s s') (h : DispatchInv s) : DispatchInv s' := by
  induction hrun with
  | refl => exact h
  | tail _ hstep ih =>
      obtain ⟨i, a, hstep, hfresh⟩ := hstep
      exact hstep.dispatchInv hfresh ih

/-! ### A late assignment -/

/-- Assigning an assigned contract puts it into a second set, or throws when its
own executor is on top. -/
theorem DispatchInv.not_agrees_assign (h : DispatchInv s)
    (hold : s.manager.findContract contract = some p) : ¬ Agrees (s.assign i contract) := by
  intro hagrees
  have hdone : (s.assign i contract).calls i
      = some (contract, .done (s.manager.assign contract).2) := by
    simp only [Dispatch.assign, Function.update_self]
  obtain ⟨q, hq, htop⟩ := h.table.exists_top h.nonempty
  obtain ⟨hp, hcp⟩ := h.table.findContract_eq_some_iff.mp hold
  by_cases hcq : contract ∈ (s.manager.info q).contracts
  · obtain ⟨e, he⟩ := hagrees.returns i contract _ hdone
    simp only [ExecutorManager.assign, htop, if_pos hcq] at he
    cases he
  · have hpq : p ≠ q := fun heq => hcq (heq ▸ hcp)
    have hinfo : ∀ r, (s.assign i contract).manager.info r
        = if r = q then (s.manager.info q).insert contract else s.manager.info r :=
      info_assign htop hcq (h.table.pointers q hq)
    have hexecutors : (s.assign i contract).manager.executors = s.manager.executors :=
      executors_assign htop hcq
    obtain ⟨r, -, -, hunique⟩ := hagrees.oneSet i contract _ hdone
    rw [hexecutors] at hunique
    have hpr : p = r := hunique p hp (by rw [hinfo, if_neg hpq]; exact hcp)
    have hqr : q = r := by
      apply hunique q hq
      rw [hinfo, if_pos rfl, ExecutorInfo.insert, List.mem_orderedInsert]
      exact Or.inl rfl
    exact hpq (hpr.trans hqr.symm)

/-- **Concurrent dispatch agrees** on the executors in every run whose
assignments find their contract unassigned, and an assignment keeps the
agreement exactly when it does. -/
theorem dispatchExecutor_agrees {m : ExecutorManager} (hm : Reachable m)
    (hne : m.name2Executors ≠ []) (hrun : FreshSteps { manager := m } s) :
    Agrees s ∧ ∀ i contract, s.calls i = some (contract, .missed) →
      (Agrees (s.assign i contract) ↔ s.manager.findContract contract = none) := by
  have hinv : DispatchInv s := hrun.dispatchInv ⟨hm.inv, hne, fun i c o hc => by cases hc⟩
  refine ⟨hinv.agrees, fun i contract _ => ⟨fun hagrees => ?_, fun hnew => ?_⟩⟩
  · rcases hfind : s.manager.findContract contract with _ | p
    · rfl
    · exact absurd hagrees (hinv.not_agrees_assign hfind)
  · exact (hinv.assign hnew).agrees

/-- Two calls for one contract on two executors, both past their lookup. -/
def bothMissed : Dispatch :=
  ((((({ manager := twoExecutors } : Dispatch).setStage 0 "contract" .looking).setStage 0
    "contract" .missed).setStage 1 "contract" .looking).setStage 1 "contract" .missed)

theorem bothMissed_freshSteps : FreshSteps { manager := twoExecutors } bothMissed :=
  .head ⟨0, _, .call "contract" rfl, trivial⟩ (.head ⟨0, _, .missed rfl rfl, trivial⟩
    (.head ⟨1, _, .call "contract" rfl, trivial⟩ (.single ⟨1, _, .missed rfl rfl, trivial⟩)))

/-- The first of them to assign keeps the agreement. -/
theorem dispatchExecutor_agrees_first : Agrees (bothMissed.assign 0 "contract") :=
  ((dispatchExecutor_agrees twoExecutors_reachable (by decide) bothMissed_freshSteps).2
    0 "contract" rfl).mpr rfl

/-- The second one assigns the contract to another executor. -/
theorem dispatchExecutor_disagrees :
    ¬ ∀ (m : ExecutorManager) (s : Dispatch), Reachable m → m.name2Executors ≠ [] →
      Steps { manager := m } s → Agrees s := by
  intro hclaim
  have hrun : Steps { manager := twoExecutors }
      ((bothMissed.assign 0 "contract").assign 1 "contract") :=
    .head ⟨0, _, .call "contract" rfl⟩ (.head ⟨0, _, .missed rfl rfl⟩
      (.head ⟨1, _, .call "contract" rfl⟩ (.head ⟨1, _, .missed rfl rfl⟩
        (.head ⟨0, _, .assign rfl⟩ (.single ⟨1, _, .assign rfl⟩)))))
  have h := hclaim twoExecutors _ twoExecutors_reachable (by decide) hrun
  have hsame := h.same 0 1 "contract" (some 1) (some 2) rfl rfl
  exact absurd hsame (by decide)

end Dispatch

end ExecutorManager

end BcosScheduler
