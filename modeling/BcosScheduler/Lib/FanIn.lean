/-
BcosScheduler/Lib/FanIn.lean

Fan-in without a once-flag: the replies of a finite set of participants are
counted by handlers that run concurrently, and after its count a handler
checks whether all replies are there and, if so, calls a continuation.  Count
and check are separate steps.  Some participants are silent: their handlers
count, but do not check, and the others are asked only after them.

A call is never early and its verdict is right in every interleaving.  How
often the continuation is called depends on who is between count and check
when the last reply is counted: each of these handlers calls it once
(`calls_add_unchecked`).  So it is called exactly once if and only if the last
handler is alone (`OnceIfAlone`).

A program is connected by a view of its states as fan-ins that its steps
respect (`once_of_simulates`).
-/
import Mathlib.Data.Fintype.Card
import Mathlib.Data.Finset.Card
import Mathlib.Logic.Relation

/-- What is seen of a fan-in: the counted replies, whose check has run, and the
calls of the continuation, each with its verdict (whether somebody failed). -/
@[ext] structure FanIn (P : Type*) where
  reply : P → Option Bool
  checked : P → Bool
  calls : List Bool

namespace FanIn

variable {P : Type*}

/-- Nobody has replied. -/
def init : FanIn P := ⟨fun _ => none, fun _ => false, []⟩

/-- All replies are counted. -/
def Full (s : FanIn P) : Prop := ∀ p, s.reply p ≠ none

/-- Somebody's reply was a failure. -/
def Failed (s : FanIn P) : Prop := ∃ p, s.reply p = some false

/-- All handlers have run to their end. -/
def Finished (checks : P → Bool) (s : FanIn P) : Prop :=
  s.Full ∧ ∀ p, checks p = true → s.checked p = true

variable [DecidableEq P]

/-- One step of a handler; `checks` tells whose handlers check. -/
inductive Step (checks : P → Bool) : FanIn P → FanIn P → Prop
  | count {s : FanIn P} (p : P) (ok : Bool) : s.reply p = none →
      (checks p = true → ∀ q, checks q = false → s.reply q ≠ none) →
      Step checks s { s with reply := Function.update s.reply p (some ok) }
  | checkEarly {s : FanIn P} (p : P) : checks p = true → s.reply p ≠ none →
      s.checked p = false → ¬ s.Full →
      Step checks s { s with checked := Function.update s.checked p true }
  | checkFull {s : FanIn P} (p : P) (failed : Bool) : checks p = true → s.reply p ≠ none →
      s.checked p = false → s.Full → (failed = true ↔ s.Failed) →
      Step checks s { s with checked := Function.update s.checked p true
                             calls := s.calls ++ [failed] }

/-- If the step counts the last reply, no other handler is between its count
and its check. -/
def Alone (checks : P → Bool) (s s' : FanIn P) : Prop :=
  ¬ s.Full → s'.Full → ∀ p, checks p = true → s.reply p ≠ none → s.checked p = true

variable [Fintype P] {checks : P → Bool} {s s' t : FanIn P}

variable (checks) in
/-- How many checks are still to run. -/
def unchecked (s : FanIn P) : Nat :=
  (Finset.univ.filter fun p => checks p = true ∧ s.checked p = false).card

/-! ### After the last reply -/

/-- A check takes its handler off the unchecked ones. -/
theorem unchecked_check {p : P} (hp : checks p = true) (hnot : s.checked p = false)
    (calls : List Bool) :
    unchecked checks { s with checked := Function.update s.checked p true, calls := calls } + 1
      = unchecked checks s := by
  have herase : (Finset.univ.filter fun q =>
        checks q = true ∧ Function.update s.checked p true q = false)
      = (Finset.univ.filter fun q => checks q = true ∧ s.checked q = false).erase p := by
    ext q
    by_cases hq : q = p
    · subst hq
      simp
    · simp [hq]
  have hmem : p ∈ Finset.univ.filter fun q => checks q = true ∧ s.checked q = false := by
    simp [hp, hnot]
  unfold unchecked
  rw [herase, Finset.card_erase_add_one hmem]

omit [Fintype P] in
theorem Step.full (hstep : Step checks s s') (hfull : s.Full) : s'.Full := by
  cases hstep with
  | count p ok hnone _ => exact absurd hnone (hfull p)
  | checkEarly p _ _ _ hnot => exact hfull
  | checkFull p failed _ _ _ _ _ => exact hfull

/-- Once all replies are counted, every check makes one call. -/
theorem Step.calls_add_unchecked (hstep : Step checks s s') (hfull : s.Full) :
    s'.calls.length + unchecked checks s' = s.calls.length + unchecked checks s := by
  cases hstep with
  | count p ok hnone _ => exact absurd hnone (hfull p)
  | checkEarly p _ _ _ hnot => exact absurd hfull hnot
  | checkFull p failed hp hreply hnot _ _ =>
      have hun := unchecked_check hp hnot (s.calls ++ [failed])
      rw [← hun, List.length_append, List.length_singleton]
      omega

theorem calls_add_unchecked (hsteps : Relation.ReflTransGen (Step checks) s t)
    (hfull : s.Full) :
    t.Full ∧ t.calls.length + unchecked checks t = s.calls.length + unchecked checks s := by
  induction hsteps with
  | refl => exact ⟨hfull, rfl⟩
  | tail _ hstep ih => exact ⟨hstep.full ih.1, (hstep.calls_add_unchecked ih.1).trans ih.2⟩

omit [DecidableEq P] in
theorem Finished.unchecked_eq_zero (h : Finished checks s) : unchecked checks s = 0 := by
  rw [unchecked, Finset.card_eq_zero]
  apply Finset.eq_empty_of_forall_notMem
  intro p hp
  obtain ⟨-, hchecks, hnot⟩ := Finset.mem_filter.mp hp
  rw [h.2 p hchecks] at hnot
  cases hnot

/-! ### Before and at the last reply -/

structure Inv (checks : P → Bool) (s : FanIn P) : Prop where
  order : ∀ p, s.checked p = true → s.reply p ≠ none
  silentFirst : ∀ p, checks p = true → s.reply p ≠ none →
    ∀ q, checks q = false → s.reply q ≠ none
  early : ¬ s.Full → s.calls = []
  verdict : ∀ failed ∈ s.calls, (failed = true ↔ s.Failed)
  /-- Somebody has called or will. -/
  pending : s.Full → 1 ≤ s.calls.length + unchecked checks s

omit [DecidableEq P] in
theorem Inv.init [Nonempty P] : Inv checks (FanIn.init : FanIn P) where
  order := fun p h => by cases h
  silentFirst := fun p _ h => absurd rfl h
  early := fun _ => rfl
  verdict := fun failed h => by cases h
  pending := fun h => absurd rfl (h (Classical.arbitrary P))

omit [DecidableEq P] in
/-- Who has not replied has not checked. -/
theorem Inv.not_checked (h : Inv checks s) {p : P} (hnone : s.reply p = none) :
    s.checked p = false := by
  by_contra hchecked
  exact h.order p (Bool.not_eq_false _ ▸ hchecked) hnone

omit [DecidableEq P] in
/-- The handler that counts the last reply will check. -/
theorem Inv.checks_of_last (h : Inv checks s) (hsome : ∃ q, checks q = true) {p : P}
    (hnone : s.reply p = none) (hothers : ∀ q, q ≠ p → s.reply q ≠ none) :
    checks p = true := by
  by_contra hsilent
  obtain ⟨q, hq⟩ := hsome
  have hqp : q ≠ p := by
    rintro rfl
    exact hsilent hq
  exact h.silentFirst q hq (hothers q hqp) p (Bool.eq_false_iff.mpr hsilent) hnone

omit [Fintype P] in
theorem reply_ne_none_of_full {p : P} {ok : Bool}
    (hfull : Full { s with reply := Function.update s.reply p (some ok) }) :
    ∀ q, q ≠ p → s.reply q ≠ none := by
  intro q hq
  have hne := hfull q
  simp only [Function.update_of_ne hq] at hne
  exact hne

theorem Inv.count (h : Inv checks s) (hsome : ∃ q, checks q = true) {p : P} (ok : Bool)
    (hnone : s.reply p = none)
    (hsilent : checks p = true → ∀ q, checks q = false → s.reply q ≠ none) :
    Inv checks { s with reply := Function.update s.reply p (some ok) } := by
  have hnil : s.calls = [] := h.early fun hfull => hfull p hnone
  have hkeep : ∀ q, s.reply q ≠ none → Function.update s.reply p (some ok) q ≠ none := by
    intro q hq
    by_cases hqp : q = p
    · subst hqp
      simp
    · rw [Function.update_of_ne hqp]
      exact hq
  refine ⟨fun q hq => hkeep q (h.order q hq), fun q hq hreply r hr => ?_, fun _ => hnil, ?_, ?_⟩
  · apply hkeep
    by_cases hqp : q = p
    · subst hqp
      exact hsilent hq r hr
    · simp only [Function.update_of_ne hqp] at hreply
      exact h.silentFirst q hq hreply r hr
  · rw [hnil]
    intro failed hmem
    cases hmem
  · intro hfull
    have hchecks := h.checks_of_last hsome hnone (reply_ne_none_of_full hfull)
    have hnot := h.not_checked hnone
    have hpos : 0 < unchecked checks s := by
      rw [unchecked, Finset.card_pos]
      exact ⟨p, by simp [hchecks, hnot]⟩
    show 1 ≤ s.calls.length + unchecked checks s
    omega

theorem Step.inv (hstep : Step checks s s') (hsome : ∃ q, checks q = true) (h : Inv checks s) :
    Inv checks s' := by
  have horder : ∀ {p : P}, s.reply p ≠ none → ∀ q, Function.update s.checked p true q = true →
      s.reply q ≠ none := by
    intro p hp q hq
    by_cases hqp : q = p
    · subst hqp
      exact hp
    · rw [Function.update_of_ne hqp] at hq
      exact h.order q hq
  cases hstep with
  | count p ok hnone hsilent => exact h.count hsome ok hnone hsilent
  | checkEarly p hp hreply hnot hearly =>
      exact ⟨horder hreply, h.silentFirst, h.early, h.verdict, fun hfull => absurd hfull hearly⟩
  | checkFull p failed hp hreply hnot hfull hverdict =>
      refine ⟨horder hreply, h.silentFirst, fun hnfull => absurd hfull hnfull, ?_, ?_⟩
      · intro e he
        rcases List.mem_append.mp he with he | he
        · exact h.verdict e he
        · rw [List.mem_singleton.mp he]
          exact hverdict
      · intro _
        rw [List.length_append, List.length_singleton]
        omega

/-! ### The last handler alone -/

/-- After the last reply of a run whose last handler was alone. -/
def OneCall (checks : P → Bool) (s : FanIn P) : Prop :=
  s.Full → s.calls.length + unchecked checks s = 1

theorem Step.oneCall (hstep : Step checks s s') (hsome : ∃ q, checks q = true)
    (halone : Alone checks s s') (h : Inv checks s) (hone : OneCall checks s) :
    OneCall checks s' := by
  intro hfull'
  by_cases hfull : s.Full
  · rw [hstep.calls_add_unchecked hfull]
    exact hone hfull
  · cases hstep with
    | count p ok hnone hsilent =>
        -- only the handler of `p` has not checked yet
        have hothers := reply_ne_none_of_full hfull'
        have hchecks := h.checks_of_last hsome hnone hothers
        have hnot := h.not_checked hnone
        have hsingle : (Finset.univ.filter fun q => checks q = true ∧ s.checked q = false)
            = {p} := by
          ext q
          simp only [Finset.mem_filter, Finset.mem_univ, true_and, Finset.mem_singleton]
          constructor
          · rintro ⟨hq, hunchecked⟩
            by_contra hqp
            rw [halone hfull hfull' q hq (hothers q hqp)] at hunchecked
            cases hunchecked
          · rintro rfl
            exact ⟨hchecks, hnot⟩
        show s.calls.length + unchecked checks s = 1
        rw [h.early hfull, unchecked, hsingle, Finset.card_singleton]
        rfl
    | checkEarly p _ _ _ hnot => exact absurd hfull' hfull
    | checkFull p failed _ _ _ hnow _ => exact absurd hnow hfull

/-- With another handler before its check, two calls are still to come. -/
theorem Step.two_unchecked (hstep : Step checks s s') (hsome : ∃ q, checks q = true)
    (hnot : ¬ Alone checks s s') (h : Inv checks s) :
    s'.Full ∧ 2 ≤ unchecked checks s' := by
  simp only [Alone, not_forall] at hnot
  obtain ⟨hfull, hfull', q, hq, hreply, hunchecked⟩ := hnot
  refine ⟨hfull', ?_⟩
  cases hstep with
  | count p ok hnone hsilent =>
      have hchecks := h.checks_of_last hsome hnone (reply_ne_none_of_full hfull')
      have hp := h.not_checked hnone
      have hpq : p ≠ q := by
        rintro rfl
        exact hreply hnone
      have hsub : ({p, q} : Finset P)
          ⊆ Finset.univ.filter fun r => checks r = true ∧ s.checked r = false := by
        intro r hr
        rcases Finset.mem_insert.mp hr with rfl | hr
        · simp [hchecks, hp]
        · rw [Finset.mem_singleton.mp hr]
          simpa [hq] using hunchecked
      calc 2 = ({p, q} : Finset P).card := (Finset.card_pair hpq).symm
        _ ≤ unchecked checks s := Finset.card_le_card hsub
  | checkEarly p _ _ _ hn => exact absurd hfull' hfull
  | checkFull p failed _ _ _ hf _ => exact absurd hfull' hfull

/-! ### Programs -/

/-- The continuation of a program is called exactly once, in time and with the
right verdict. -/
def ExactlyOnce {σ : Type*} (checks : P → Bool) (step : σ → σ → Prop) (start : σ)
    (view : σ → FanIn P) : Prop :=
  ∀ s, Relation.ReflTransGen step start s →
    ((view s).calls ≠ [] → (view s).Full) ∧
    (∀ failed ∈ (view s).calls, (failed = true ↔ (view s).Failed)) ∧
    (view s).calls.length ≤ 1 ∧ (Finished checks (view s) → (view s).calls.length = 1)

/-- What holds of a fan-in without a once-flag. -/
structure OnceIfAlone {σ : Type*} (checks : P → Bool) (step : σ → σ → Prop) (start : σ)
    (view : σ → FanIn P) : Prop where
  /-- Every call is in time and its verdict right, and at the end there was one. -/
  sound : ∀ s, Relation.ReflTransGen step start s →
    ((view s).calls ≠ [] → (view s).Full) ∧
    (∀ failed ∈ (view s).calls, (failed = true ↔ (view s).Failed)) ∧
    (Finished checks (view s) → (view s).calls ≠ [])
  /-- If the handler of the last reply is alone, there is exactly one. -/
  once : ∀ s, Relation.ReflTransGen
      (fun s s' => step s s' ∧ Alone checks (view s) (view s')) start s →
    (view s).calls.length ≤ 1 ∧ (Finished checks (view s) → (view s).calls.length = 1)
  /-- If it is not, there are more. -/
  twice : ∀ s s' t, Relation.ReflTransGen
      (fun s s' => step s s' ∧ Alone checks (view s) (view s')) start s →
    step s s' → ¬ Alone checks (view s) (view s') → Relation.ReflTransGen step s' t →
    Finished checks (view t) → 2 ≤ (view t).calls.length

section Simulation

variable {σ : Type*} {step : σ → σ → Prop} {start : σ} {view : σ → FanIn P} {I : σ → Prop}

omit [Fintype P] in
/-- Runs of a program, seen as runs of the fan-in. -/
theorem steps_of_simulates (hpres : ∀ s s', I s → step s s' → I s')
    (hsim : ∀ s s', I s → step s s' → view s' = view s ∨ Step checks (view s) (view s'))
    {a b : σ} (ha : I a) (hrun : Relation.ReflTransGen step a b) :
    I b ∧ Relation.ReflTransGen (Step checks) (view a) (view b) := by
  induction hrun with
  | refl => exact ⟨ha, .refl⟩
  | tail _ hstep ih =>
      refine ⟨hpres _ _ ih.1 hstep, ?_⟩
      rcases hsim _ _ ih.1 hstep with heq | hview
      · rw [heq]
        exact ih.2
      · exact ih.2.tail hview

theorem Inv.steps (hsome : ∃ q, checks q = true) {u v : FanIn P} (hu : Inv checks u)
    (hrun : Relation.ReflTransGen (Step checks) u v) : Inv checks v := by
  induction hrun with
  | refl => exact hu
  | tail _ hstep ih => exact hstep.inv hsome ih

/-- While the handler of the last reply is alone, there is one call or one
handler that will make it. -/
theorem oneCall_of_simulates (hsome : ∃ q, checks q = true) (hstart : I start)
    (hpres : ∀ s s', I s → step s s' → I s')
    (hsim : ∀ s s', I s → step s s' → view s' = view s ∨ Step checks (view s) (view s'))
    (hview : view start = FanIn.init) {a : σ} (hrun : Relation.ReflTransGen
      (fun s s' => step s s' ∧ Alone checks (view s) (view s')) start a) :
    I a ∧ Inv checks (view a) ∧ OneCall checks (view a) := by
  induction hrun with
  | refl =>
      obtain ⟨q, -⟩ := hsome
      have : Nonempty P := ⟨q⟩
      refine ⟨hstart, hview ▸ Inv.init, fun hfull => ?_⟩
      rw [hview] at hfull
      exact absurd rfl (hfull q)
  | tail _ hstep ih =>
      obtain ⟨hI, hi, hone⟩ := ih
      refine ⟨hpres _ _ hI hstep.1, ?_⟩
      rcases hsim _ _ hI hstep.1 with heq | hs
      · rw [heq]
        exact ⟨hi, hone⟩
      · exact ⟨hs.inv hsome hi, hs.oneCall hsome hstep.2 hi hone⟩

/-- **A program that simulates a fan-in** calls its continuation exactly once if
and only if the handler of the last reply is alone. -/
theorem once_of_simulates (hsome : ∃ q, checks q = true) (hstart : I start)
    (hpres : ∀ s s', I s → step s s' → I s')
    (hsim : ∀ s s', I s → step s s' → view s' = view s ∨ Step checks (view s) (view s'))
    (hview : view start = FanIn.init) : OnceIfAlone checks step start view := by
  have hinit : Inv checks (view start) := by
    obtain ⟨q, -⟩ := hsome
    have : Nonempty P := ⟨q⟩
    exact hview ▸ Inv.init
  refine ⟨fun s hrun => ?_, fun s hrun => ?_, fun s s' t hrun hstep hnot hrest hfinished => ?_⟩
  · have hi := hinit.steps hsome (steps_of_simulates hpres hsim hstart hrun).2
    refine ⟨fun hne => by_contra fun hfull => hne (hi.early hfull), hi.verdict, fun hfin hnil => ?_⟩
    have hpending := hi.pending hfin.1
    rw [hnil, hfin.unchecked_eq_zero] at hpending
    exact absurd hpending (by decide)
  · obtain ⟨-, hi, hone⟩ := oneCall_of_simulates hsome hstart hpres hsim hview hrun
    constructor
    · by_cases hfull : (view s).Full
      · have := hone hfull
        omega
      · rw [hi.early hfull]
        exact Nat.zero_le 1
    · intro hfin
      have hsum := hone hfin.1
      rw [hfin.unchecked_eq_zero] at hsum
      exact hsum
  · obtain ⟨hI, hi, -⟩ := oneCall_of_simulates hsome hstart hpres hsim hview hrun
    rcases hsim _ _ hI hstep with heq | hs
    · rw [heq] at hnot
      exact absurd (fun hfull hfull' => absurd hfull' hfull) hnot
    · obtain ⟨hfull, htwo⟩ := hs.two_unchecked hsome hnot hi
      obtain ⟨-, hsteps⟩ := steps_of_simulates hpres hsim (hpres _ _ hI hstep) hrest
      have hsum := (calls_add_unchecked hsteps hfull).2
      rw [hfinished.unchecked_eq_zero] at hsum
      omega

end Simulation

end FanIn
