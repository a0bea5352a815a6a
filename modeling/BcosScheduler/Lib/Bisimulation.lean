/-
BcosScheduler/Lib/Bisimulation.lean

Two systems that follow each other step by step.

A relation between the states of two systems is a bisimulation if every step of
either one, from related states, can be matched by a step of the other one that
leads to related states again.  Then whole runs are matched, in both directions
(`forth_star`, `back_star`).  States are `Bisimilar` under an observation if a
bisimulation relates them and all its pairs satisfy the observation.
-/
import Mathlib.Logic.Relation

variable {α β : Type*} {step : α → α → Prop} {step' : β → β → Prop} {R : α → β → Prop}

/-- Steps of either system are matched by the other one. -/
structure Bisimulation (step : α → α → Prop) (step' : β → β → Prop) (R : α → β → Prop) :
    Prop where
  forth : ∀ {a b a'}, R a b → step a a' → ∃ b', step' b b' ∧ R a' b'
  back : ∀ {a b b'}, R a b → step' b b' → ∃ a', step a a' ∧ R a' b'

namespace Bisimulation

theorem forth_star (h : Bisimulation step step' R) {a a' : α} {b : β} (hR : R a b)
    (hrun : Relation.ReflTransGen step a a') :
    ∃ b', Relation.ReflTransGen step' b b' ∧ R a' b' := by
  induction hrun with
  | refl => exact ⟨b, .refl, hR⟩
  | tail _ hstep ih =>
      obtain ⟨c, hc, hRc⟩ := ih
      obtain ⟨b', hb', hRb'⟩ := h.forth hRc hstep
      exact ⟨b', hc.tail hb', hRb'⟩

theorem back_star (h : Bisimulation step step' R) {a : α} {b b' : β} (hR : R a b)
    (hrun : Relation.ReflTransGen step' b b') :
    ∃ a', Relation.ReflTransGen step a a' ∧ R a' b' := by
  induction hrun with
  | refl => exact ⟨a, .refl, hR⟩
  | tail _ hstep ih =>
      obtain ⟨c, hc, hRc⟩ := ih
      obtain ⟨a', ha', hRa'⟩ := h.back hRc hstep
      exact ⟨a', hc.tail ha', hRa'⟩

end Bisimulation

/-- Related by a bisimulation whose pairs satisfy `obs`. -/
def Bisimilar (step : α → α → Prop) (step' : β → β → Prop) (obs : α → β → Prop) (a : α) (b : β) :
    Prop :=
  ∃ R, Bisimulation step step' R ∧ (∀ {a b}, R a b → obs a b) ∧ R a b

namespace Bisimilar

variable {obs : α → β → Prop} {a a' : α} {b b' : β}

theorem observed (h : Bisimilar step step' obs a b) : obs a b := by
  obtain ⟨R, -, hobs, hR⟩ := h
  exact hobs hR

theorem forth_star (h : Bisimilar step step' obs a b) (hrun : Relation.ReflTransGen step a a') :
    ∃ b', Relation.ReflTransGen step' b b' ∧ Bisimilar step step' obs a' b' := by
  obtain ⟨R, hbisim, hobs, hR⟩ := h
  obtain ⟨b', hb', hR'⟩ := hbisim.forth_star hR hrun
  exact ⟨b', hb', R, hbisim, hobs, hR'⟩

theorem back_star (h : Bisimilar step step' obs a b) (hrun : Relation.ReflTransGen step' b b') :
    ∃ a', Relation.ReflTransGen step a a' ∧ Bisimilar step step' obs a' b' := by
  obtain ⟨R, hbisim, hobs, hR⟩ := h
  obtain ⟨a', ha', hR'⟩ := hbisim.back_star hR hrun
  exact ⟨a', ha', R, hbisim, hobs, hR'⟩

end Bisimilar
