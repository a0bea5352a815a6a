/-
BcosScheduler/Lib/Inevitable.lean

What every run of a transition system comes to.

`Inevitable R P s` says that no run from `s` can avoid `P`: as long as `P` does
not hold a step is possible, and whichever steps are made, finitely many of them
lead to a state with `P`.  The rule is a measure that every step lowers while an
invariant holds (`Inevitable.of_measure`); phases that follow each other are
composed by `Inevitable.bind`.
-/
import Mathlib.Logic.Relation
import Mathlib.Order.WellFounded

/-- Every run from a state reaches `P`. -/
inductive Inevitable {σ : Type*} (R : σ → σ → Prop) (P : σ → Prop) : σ → Prop
  | here {s : σ} : P s → Inevitable R P s
  | next {s : σ} : (∃ s', R s s') → (∀ s', R s s' → Inevitable R P s') → Inevitable R P s

namespace Inevitable

variable {σ τ α : Type*} {R : σ → σ → Prop} {P Q : σ → Prop} {s : σ}

theorem mono (h : Inevitable R P s) (hPQ : ∀ s, P s → Q s) : Inevitable R Q s := by
  induction h with
  | here hP => exact .here (hPQ _ hP)
  | next hstep _ ih => exact .next hstep ih

/-- From wherever `P` is reached, go on to `Q`. -/
theorem bind (h : Inevitable R P s) (hPQ : ∀ s, P s → Inevitable R Q s) : Inevitable R Q s := by
  induction h with
  | here hP => exact hPQ _ hP
  | next hstep _ ih => exact .next hstep ih

/-- An invariant of the steps holds where `P` is reached. -/
theorem with_invariant {I : σ → Prop} (h : Inevitable R P s) (hI : I s)
    (hkeep : ∀ s s', I s → R s s' → I s') : Inevitable R (fun s => P s ∧ I s) s := by
  induction h with
  | here hP => exact .here ⟨hP, hI⟩
  | next hstep _ ih => exact .next hstep fun s' hs' => ih s' hs' (hkeep _ s' hI hs')

/-- Until `P` holds there is a step, and every step lowers the measure or leads to `P`. -/
theorem of_measure [LT α] [WellFoundedLT α] (μ : σ → α) {I : σ → Prop}
    (hstep : ∀ s s', I s → R s s' → P s' ∨ I s' ∧ μ s' < μ s)
    (hprogress : ∀ s, I s → ¬ P s → ∃ s', R s s') (hI : I s) : Inevitable R P s := by
  generalize hμ : μ s = n
  induction n using WellFoundedLT.induction generalizing s with
  | ind n ih =>
      by_cases hP : P s
      · exact .here hP
      · refine .next (hprogress s hI hP) fun s' hs' => ?_
        rcases hstep s s' hI hs' with hP' | ⟨hI', hlt⟩
        · exact .here hP'
        · exact ih (μ s') (hμ ▸ hlt) hI' rfl

/-- A system that contains another one: runs of the part are runs of the whole as
long as the whole does nothing else. -/
theorem lift {S : τ → τ → Prop} {Q : τ → Prop} (embed : σ → τ)
    (hforth : ∀ s s', R s s' → S (embed s) (embed s'))
    (hback : ∀ s t, ¬ P s → S (embed s) t → ∃ s', R s s' ∧ t = embed s')
    (hPQ : ∀ s, P s → Inevitable S Q (embed s)) (h : Inevitable R P s) :
    Inevitable S Q (embed s) := by
  induction h with
  | here hP => exact hPQ _ hP
  | @next s hstep _ ih =>
      by_cases hP : P s
      · exact hPQ s hP
      · obtain ⟨s', hs'⟩ := hstep
        refine .next ⟨_, hforth s s' hs'⟩ fun t ht => ?_
        obtain ⟨s'', hs'', rfl⟩ := hback s t hP ht
        exact ih s'' hs''

/-- Where `P` leaves nothing to do, what is inevitable stays so along a run. -/
theorem along {t : σ} (h : Inevitable R P s) (hfinal : ∀ s s', P s → ¬ R s s')
    (hrun : Relation.ReflTransGen R s t) : Inevitable R P t := by
  induction hrun with
  | refl => exact h
  | tail _ hstep ih =>
      cases ih with
      | here hP => exact absurd hstep (hfinal _ _ hP)
      | next _ hnext => exact hnext _ hstep

end Inevitable
