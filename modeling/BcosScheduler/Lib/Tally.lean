/-
BcosScheduler/Lib/Tally.lean

Counting replies of a finite set of participants.  Each participant replies
at most once, with success or failure; two counters count the replies of
each kind.  The counters are full exactly when every participant has replied,
and then the failure counter tells whether one of them failed.
-/
import Mathlib.Data.Fintype.Card
import Mathlib.Data.Finset.Card
import Mathlib.Tactic.Ring

namespace Tally

variable {P : Type*} [Fintype P] [DecidableEq P]

/-- How many participants replied `b`. -/
def count (reply : P → Option Bool) (b : Bool) : Nat :=
  (Finset.univ.filter fun p => reply p = some b).card

omit [DecidableEq P] in
/-- Nobody has replied yet. -/
theorem count_none (b : Bool) : count (fun _ : P => none) b = 0 := by
  simp [count]

/-- A first reply of a participant moves its own counter by one. -/
theorem count_update {reply : P → Option Bool} {p : P} (h : reply p = none) (a b : Bool) :
    count (Function.update reply p (some a)) b = count reply b + if a = b then 1 else 0 := by
  unfold count
  by_cases hab : a = b
  · subst hab
    have hins : (Finset.univ.filter fun q => Function.update reply p (some a) q = some a)
        = insert p (Finset.univ.filter fun q => reply q = some a) := by
      ext q
      by_cases hq : q = p
      · subst hq
        simp
      · simp [hq]
    rw [hins, Finset.card_insert_of_notMem (by simp [h])]
    simp
  · have hsame : (Finset.univ.filter fun q => Function.update reply p (some a) q = some b)
        = Finset.univ.filter fun q => reply q = some b := by
      ext q
      by_cases hq : q = p
      · subst hq
        simp [hab, h]
      · simp [hq]
    rw [hsame]
    simp [hab]

omit [DecidableEq P] in
theorem count_add (reply : P → Option Bool) :
    count reply true + count reply false
      = (Finset.univ.filter fun p => reply p ≠ none).card := by
  classical
  unfold count
  rw [← Finset.card_union_of_disjoint]
  · congr 1
    ext p
    rcases h : reply p with _ | _ | _ <;> simp [h]
  · rw [Finset.disjoint_filter]
    intro p _ h₁ h₂
    rw [h₁] at h₂
    cases h₂

omit [DecidableEq P] in
theorem count_add_le (reply : P → Option Bool) :
    count reply true + count reply false ≤ Fintype.card P := by
  rw [count_add]
  exact Finset.card_le_univ _

omit [DecidableEq P] in
/-- The counters are full iff everybody has replied. -/
theorem full_iff (reply : P → Option Bool) :
    Fintype.card P ≤ count reply true + count reply false ↔ ∀ p, reply p ≠ none := by
  rw [count_add]
  constructor
  · intro h p
    -- a subset that is as large as the whole is the whole
    have huniv : (Finset.univ.filter fun p => reply p ≠ none) = Finset.univ :=
      Finset.eq_univ_of_card _ (le_antisymm (Finset.card_le_univ _) h)
    have hp : p ∈ Finset.univ.filter fun p => reply p ≠ none := by
      rw [huniv]
      exact Finset.mem_univ p
    exact (Finset.mem_filter.mp hp).2
  · intro h
    rw [Finset.filter_true_of_mem fun p _ => h p, Finset.card_univ]

omit [DecidableEq P] in
theorem count_pos_iff (reply : P → Option Bool) (b : Bool) :
    0 < count reply b ↔ ∃ p, reply p = some b := by
  simp [count, Finset.card_pos, Finset.Nonempty]

end Tally
