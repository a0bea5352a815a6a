/-
BcosScheduler/BatchFanIn.lean

The continuations that wait for all executors: those of `batchNextBlock` and
`batchBlockCommit`, and the decision at the end of the prepare phase of
`asyncCommit`.

All three count replies in a `CommitStatus` and run `checkAndCommit` after the
count, as a second step of the reply handler.  `batchNextBlock` asks the
executors only.  `batchBlockCommit` asks the storage first; the handler of the
storage counts its reply and asks the executors, but does not run
`checkAndCommit`.  None of them has a flag like `callbackExecuted` of the
batches, so they are fan-ins in the sense of `FanIn`: the continuation runs
once if and only if the last reply finds no other handler between its count
and its check.
-/
import BcosScheduler.AsyncCommit
import BcosScheduler.Lib.FanIn
import Mathlib.Tactic.FinCases

namespace BcosScheduler

/-- One collection of replies: the counters, who was asked, whose reply was
counted, whose handler ran `checkAndCommit`, and the calls of the callback. -/
structure Collector (P : Type) where
  status : CommitStatus
  asked : P → Bool := fun _ => false
  reply : P → Option Bool := fun _ => none
  checked : P → Bool := fun _ => false
  callbacks : List (Option Error) := []

/-! ### `checkAndCommit` -/

/-- What `checkAndCommit` hands to the callback, if anything. -/
def checkAndCommit (code : SchedulerError) (message : String) (number : BlockNumber)
    (status : CommitStatus) : List (Option Error) :=
  if status.full then
    if 0 < status.failed then
      [some (code.error (message ++ toString number ++ " with errors! " ++
        toString status.failed))]
    else [none]
  else []

/-- `checkAndCommit` of `batchNextBlock`. -/
def nextBlockCheckAndCommit (number : BlockNumber) (status : CommitStatus) : List (Option Error) :=
  checkAndCommit .UnknownError "Next block:" number status

/-- `checkAndCommit` of `batchBlockCommit`. -/
def blockCommitCheckAndCommit (number : BlockNumber) (status : CommitStatus) :
    List (Option Error) :=
  checkAndCommit .CommitError "Commit block:" number status

theorem checkAndCommit_of_full {code : SchedulerError} {message : String} {number : BlockNumber}
    {status : CommitStatus} (hfull : status.full = true) :
    ∃ error, checkAndCommit code message number status = [error] ∧
      (error.isSome = true ↔ 0 < status.failed) := by
  unfold checkAndCommit
  rw [if_pos hfull]
  by_cases hfailed : 0 < status.failed
  · rw [if_pos hfailed]
    exact ⟨_, rfl, by simp [hfailed]⟩
  · rw [if_neg hfailed]
    exact ⟨_, rfl, by simp [hfailed]⟩

theorem checkAndCommit_of_not_full {code : SchedulerError} {message : String}
    {number : BlockNumber} {status : CommitStatus} (hfull : status.full = false) :
    checkAndCommit code message number status = [] := by
  rw [checkAndCommit, hfull]
  rfl

namespace Collector

variable {P : Type} [DecidableEq P]

/-! ### The handlers -/

def ask (c : Collector P) (p : P) : Collector P :=
  { c with asked := Function.update c.asked p true }

/-- First step of a reply handler. -/
def count (c : Collector P) (p : P) (ok : Bool) : Collector P :=
  { c with status := c.status.count ok, reply := Function.update c.reply p (some ok) }

/-- Second step of a reply handler. -/
def check (answer : CommitStatus → List (Option Error)) (c : Collector P) (p : P) : Collector P :=
  { c with checked := Function.update c.checked p true
           callbacks := c.callbacks ++ answer c.status }

/-- One step of the sending loop or of a reply handler.  Those whose handler
runs `checkAndCommit` are asked after those whose handler does not. -/
inductive Step (checks : P → Bool) (answer : CommitStatus → List (Option Error)) :
    Collector P → Collector P → Prop
  | ask {c : Collector P} (p : P) : c.asked p = false →
      (checks p = true → ∀ q, checks q = false → c.reply q ≠ none) → Step checks answer c (c.ask p)
  | count {c : Collector P} (p : P) (ok : Bool) : c.asked p = true → c.reply p = none →
      Step checks answer c (c.count p ok)
  | check {c : Collector P} (p : P) : checks p = true → c.reply p ≠ none →
      c.checked p = false → Step checks answer c (c.check answer p)

/-- The fan-in behind a collection. -/
def view (c : Collector P) : FanIn P := ⟨c.reply, c.checked, c.callbacks.map Option.isSome⟩

end Collector

/-! ### `batchNextBlock` and `batchBlockCommit` -/

variable {n : Nat} {number : BlockNumber}

/-- `batchNextBlock` before its loop. -/
def batchNextBlock (n : Nat) : Collector (Fin n) := { status := { total := n } }

/-- Steps of `batchNextBlock`. -/
def NextBlockStep (number : BlockNumber) : Collector (Fin n) → Collector (Fin n) → Prop :=
  Collector.Step (fun _ => true) (nextBlockCheckAndCommit number)

/-- `batchBlockCommit` before it asks the storage. -/
def batchBlockCommit (n : Nat) : Collector (Participant n) := { status := { total := 1 + n } }

/-- Steps of `batchBlockCommit`; only the executors' handlers run
`checkAndCommit`. -/
def BlockCommitStep (number : BlockNumber) :
    Collector (Participant n) → Collector (Participant n) → Prop :=
  Collector.Step Option.isSome (blockCommitCheckAndCommit number)

namespace Collector

section Simulation

variable {P : Type} [DecidableEq P] [Fintype P] {checks : P → Bool} {c c' : Collector P}
variable {code : SchedulerError} {message : String}

/-- The counters are right, and nobody was asked too early. -/
structure Inv (checks : P → Bool) (c : Collector P) : Prop where
  counts : c.status.Counts c.reply
  silentFirst : ∀ p, c.asked p = true → checks p = true → ∀ q, checks q = false → c.reply q ≠ none

theorem Step.inv (hstep : Step checks (checkAndCommit code message number) c c')
    (h : Inv checks c) : Inv checks c' := by
  cases hstep with
  | ask p hasked hsilent =>
      refine ⟨h.counts, fun q hq hchecks => ?_⟩
      by_cases hqp : q = p
      · subst hqp
        exact hsilent hchecks
      · simp only [Collector.ask, Function.update_of_ne hqp] at hq
        exact h.silentFirst q hq hchecks
  | count p ok hasked hnone =>
      refine ⟨h.counts.count hnone ok, fun q hq hchecks r hr => ?_⟩
      have hold := h.silentFirst q hq hchecks r hr
      show Function.update c.reply p (some ok) r ≠ none
      by_cases hrp : r = p
      · subst hrp
        exact absurd hnone hold
      · rw [Function.update_of_ne hrp]
        exact hold
  | check p hchecks hreply hnot => exact ⟨h.counts, h.silentFirst⟩

/-- The steps of a collection are steps of its fan-in, or not seen there. -/
theorem Step.view (hstep : Step checks (checkAndCommit code message number) c c')
    (h : Inv checks c) : c'.view = c.view ∨ FanIn.Step checks c.view c'.view := by
  cases hstep with
  | ask p hasked hsilent => exact Or.inl rfl
  | count p ok hasked hnone =>
      exact Or.inr (.count p ok hnone fun hchecks => h.silentFirst p hasked hchecks)
  | check p hchecks hreply hnot =>
      right
      rcases hfull : c.status.full with _ | _
      · have hnil : checkAndCommit code message number c.status = [] :=
          checkAndCommit_of_not_full hfull
        have heq : (c.check (checkAndCommit code message number) p).view =
            { c.view with checked := Function.update c.checked p true } := by
          simp only [Collector.view, Collector.check, hnil, List.append_nil]
        rw [heq]
        refine .checkEarly p hchecks hreply hnot fun hall => ?_
        rw [h.counts.full_iff.mpr hall] at hfull
        cases hfull
      · obtain ⟨error, herror, hverdict⟩ :
            ∃ error, checkAndCommit code message number c.status = [error] ∧
              (error.isSome = true ↔ 0 < c.status.failed) := checkAndCommit_of_full hfull
        have heq : (c.check (checkAndCommit code message number) p).view =
            { c.view with checked := Function.update c.checked p true
                          calls := c.view.calls ++ [error.isSome] } := by
          simp only [Collector.view, Collector.check, herror, List.map_append, List.map_cons,
            List.map_nil]
        rw [heq]
        exact .checkFull p error.isSome hchecks hreply hnot (h.counts.full_iff.mp hfull)
          (hverdict.trans h.counts.failed_pos_iff)

end Simulation

end Collector

/-! ### The prepare phase -/

namespace AsyncCommit

variable {s s' : AsyncCommit n}

/-- A second phase that rolls back. -/
def SecondPhase.isRollback : SecondPhase n → Bool
  | .commit _ => false
  | .rollback _ => true

/-- The fan-in of the prepare phase: its continuation starts a second phase,
with an error a rollback. -/
def prepareView (s : AsyncCommit n) : FanIn (Participant n) where
  reply := s.prepare.reply
  checked := fun p => p.elim false s.prepare.checked
  calls := s.second.map SecondPhase.isRollback

/-- Executors are asked to prepare after the storage has replied. -/
def StorageFirst (s : AsyncCommit n) : Prop :=
  ∀ i, s.prepare.asked (some i) = true → s.prepare.reply none ≠ none

theorem elim_update (checked : Fin n → Bool) (i : Fin n) :
    (fun p : Participant n => p.elim false (Function.update checked i true))
      = Function.update (fun p : Participant n => p.elim false checked) (some i) true := by
  funext p
  rcases p with _ | j
  · rw [Function.update_of_ne (by simp)]
    rfl
  · by_cases hj : j = i
    · subst hj
      simp
    · rw [Function.update_of_ne (by simpa using hj)]
      simp [hj]

/-- A second phase that goes on keeps its decision. -/
theorem prepareView_second {pre post : List (SecondPhase n)} {d d' : SecondPhase n}
    (hs : s.second = pre ++ d :: post) (hs' : s'.second = pre ++ d' :: post)
    (hd : SecondPhase.isRollback d' = SecondPhase.isRollback d)
    (hprepare : s'.prepare = s.prepare) : s'.prepareView = s.prepareView := by
  simp only [prepareView, hprepare, hs, hs', List.map_append, List.map_cons, hd]

/-- What a step does to the prepare phase: it asks somebody or nothing, counts a
reply, or checks. -/
theorem Step.prepare_cases (hstep : Step number s s') :
    (s'.prepareView = s.prepareView ∧ ∀ i, s'.prepare.asked (some i) = true →
      s.prepare.asked (some i) = true ∨ s.startTS ≠ none) ∨
    (∃ p ok, s.prepare.Awaits p ∧ s'.prepare = s.prepare.count p ok ∧ s'.second = s.second) ∨
    ∃ i, s.prepare.reply (some i) ≠ none ∧ s.prepare.checked i = false ∧
      s' = s.checkPrepare i := by
  cases hstep with
  | prewrite ok hnone =>
      left
      unfold onPrewrite
      split_ifs
      · refine ⟨rfl, fun i hi => Or.inl ?_⟩
        simpa [Collect.ask] using hi
      · exact ⟨rfl, fun i => Or.inl⟩
  | prepareStorage ok ts hawait => exact Or.inr (Or.inl ⟨none, ok, hawait, rfl, rfl⟩)
  | sendPrepare i hts hasked =>
      exact Or.inl ⟨rfl, fun _ _ => Or.inr (by rw [hts]; exact Option.some_ne_none _)⟩
  | countPrepare i ok hawait => exact Or.inr (Or.inl ⟨some i, ok, hawait, rfl, rfl⟩)
  | checkPrepare i hreply hnot => exact Or.inr (Or.inr ⟨i, hreply, hnot, rfl⟩)
  -- the second phases go on, each with the decision it was started with
  | commitStorage ok hs _ => exact Or.inl ⟨prepareView_second hs rfl rfl rfl, fun i => Or.inl⟩
  | sendCommit i hs _ _ => exact Or.inl ⟨prepareView_second hs rfl rfl rfl, fun i => Or.inl⟩
  | countCommit i ok hs _ => exact Or.inl ⟨prepareView_second hs rfl rfl rfl, fun i => Or.inl⟩
  | checkCommit i hs _ _ => exact Or.inl ⟨prepareView_second hs rfl rfl rfl, fun i => Or.inl⟩
  | rollbackStorage ok hs _ => exact Or.inl ⟨prepareView_second hs rfl rfl rfl, fun i => Or.inl⟩
  | countRollback i ok hs _ => exact Or.inl ⟨prepareView_second hs rfl rfl rfl, fun i => Or.inl⟩
  | checkRollback i hs _ _ => exact Or.inl ⟨prepareView_second hs rfl rfl rfl, fun i => Or.inl⟩

@[simp] theorem checkAndCommit_prepare (s : AsyncCommit n) :
    s.checkAndCommit.prepare = s.prepare := by
  unfold AsyncCommit.checkAndCommit
  split_ifs <;> rfl

theorem Step.storageFirst (hstep : Step number s s') (hinv : Inv s) (h : StorageFirst s) :
    StorageFirst s' := by
  rcases hstep.prepare_cases with ⟨hview, hasked⟩ | ⟨p, ok, hawait, hprepare, -⟩ | ⟨i, -, -, rfl⟩
  · intro i hi
    have hreply : s'.prepare.reply = s.prepare.reply := congrArg FanIn.reply hview
    rw [hreply]
    rcases hasked i hi with hi | hts
    · exact h i hi
    · exact hinv.startTS.mpr hts
  · intro i hi
    rw [hprepare] at hi ⊢
    show Function.update s.prepare.reply p (some ok) none ≠ none
    by_cases hp : (none : Participant n) = p
    · subst hp
      simp
    · rw [Function.update_of_ne hp]
      exact h i hi
  · intro j hj
    rw [AsyncCommit.checkPrepare, checkAndCommit_prepare] at hj ⊢
    exact h j hj

/-- The check of an executor's prepare handler, as a step of the fan-in. -/
theorem checkPrepare_view (hinv : Inv s) {i : Fin n} (hreply : s.prepare.reply (some i) ≠ none)
    (hnot : s.prepare.checked i = false) :
    FanIn.Step Option.isSome s.prepareView (s.checkPrepare i).prepareView := by
  have hchecked := elim_update s.prepare.checked i
  unfold checkPrepare AsyncCommit.checkAndCommit
  split_ifs with hfull hfailed
  · have heq : (batchBlockRollback { s with prepare := s.prepare.check i }).prepareView =
        { s.prepareView with
            checked := Function.update s.prepareView.checked (some i) true
            calls := s.prepareView.calls ++ [true] } := by
      simp only [prepareView, batchBlockRollback, Collect.check, hchecked, List.map_append]
      rfl
    rw [heq]
    exact .checkFull (some i) true rfl hreply hnot (hinv.counts.full_iff.mp hfull)
      (iff_of_true rfl (hinv.counts.failed_pos_iff.mp hfailed))
  · have heq : (batchBlockCommit { s with prepare := s.prepare.check i }).prepareView =
        { s.prepareView with
            checked := Function.update s.prepareView.checked (some i) true
            calls := s.prepareView.calls ++ [false] } := by
      simp only [prepareView, batchBlockCommit, Collect.check, hchecked, List.map_append]
      rfl
    rw [heq]
    exact .checkFull (some i) false rfl hreply hnot (hinv.counts.full_iff.mp hfull)
      (iff_of_false Bool.false_ne_true fun hf => hfailed (hinv.counts.failed_pos_iff.mpr hf))
  · have heq : prepareView { s with prepare := s.prepare.check i } =
        { s.prepareView with checked := Function.update s.prepareView.checked (some i) true } := by
      simp only [prepareView, Collect.check, hchecked]
    rw [heq]
    exact .checkEarly (some i) rfl hreply hnot fun hall =>
      hfull (hinv.counts.full_iff.mpr hall)

theorem Step.prepareView (hstep : Step number s s') (hinv : Inv s) (h : StorageFirst s) :
    s'.prepareView = s.prepareView ∨
      FanIn.Step Option.isSome s.prepareView s'.prepareView := by
  rcases hstep.prepare_cases with ⟨hview, -⟩ | ⟨p, ok, hawait, hprepare, hsecond⟩ |
    ⟨i, hreply, hnot, rfl⟩
  · exact Or.inl hview
  · right
    have heq : s'.prepareView =
        { s.prepareView with reply := Function.update s.prepareView.reply p (some ok) } := by
      simp only [AsyncCommit.prepareView, hprepare, hsecond, Collect.count]
    rw [heq]
    refine .count p ok hawait.2 fun hsome q hq => ?_
    obtain ⟨i, rfl⟩ := Option.isSome_iff_exists.mp hsome
    rcases q with _ | j
    · exact h i hawait.1
    · cases hq
  · exact Or.inr (checkPrepare_view hinv hreply hnot)

end AsyncCommit

/-! ### Once if alone -/

/-- **The fan-in continuations.**  The callbacks of `batchNextBlock` and of
`batchBlockCommit` and the decision of `asyncCommit` come only after all
replies, with an error (a rollback) iff somebody failed, and do come; and they
come exactly once if and only if the last reply is counted while no other
handler is between its count and its `checkAndCommit`. -/
theorem fanIn_once_iff_alone (n : Nat) (number : BlockNumber) (hn : 1 ≤ n) :
    FanIn.OnceIfAlone (fun _ => true) (NextBlockStep number) (batchNextBlock n)
      Collector.view ∧
    FanIn.OnceIfAlone Option.isSome (BlockCommitStep number) (batchBlockCommit n)
      Collector.view ∧
    FanIn.OnceIfAlone Option.isSome (AsyncCommit.Step number) ({} : AsyncCommit n)
      AsyncCommit.prepareView := by
  have hexecutor : ∃ p : Participant n, p.isSome = true := ⟨some ⟨0, hn⟩, rfl⟩
  refine ⟨?_, ?_, ?_⟩
  · apply FanIn.once_of_simulates (I := Collector.Inv fun _ => true) ⟨⟨0, hn⟩, rfl⟩
    · have hcounts := CommitStatus.Counts.init (P := Fin n)
      rw [Fintype.card_fin] at hcounts
      exact ⟨hcounts, fun p hp => by cases hp⟩
    · exact fun c c' h hstep => Collector.Step.inv hstep h
    · exact fun c c' h hstep => Collector.Step.view hstep h
    · rfl
  · apply FanIn.once_of_simulates (I := Collector.Inv Option.isSome) hexecutor
    · exact ⟨AsyncCommit.counts_init, fun p hp => by cases hp⟩
    · exact fun c c' h hstep => Collector.Step.inv hstep h
    · exact fun c c' h hstep => Collector.Step.view hstep h
    · rfl
  · apply FanIn.once_of_simulates (I := fun s => AsyncCommit.Inv s ∧ AsyncCommit.StorageFirst s)
      hexecutor
    · exact ⟨.init, fun i hi => by cases hi⟩
    · exact fun s s' h hstep => ⟨hstep.inv h.1, hstep.storageFirst h.1 h.2⟩
    · exact fun s s' h hstep => hstep.prepareView h.1 h.2
    · refine FanIn.ext rfl ?_ rfl
      funext p
      rcases p with _ | i <;> rfl

/-- Two executors have been asked, the handler of `p` has run to its end, that of `q`
has counted its reply. -/
def secondCounted (number : BlockNumber) (p q : Fin 2) (ok : Fin 2 → Bool) : Collector (Fin 2) :=
  (((((batchNextBlock 2).ask p).ask q).count p (ok p)).check (nextBlockCheckAndCommit number)
    p).count q (ok q)

/-- One handler after the other: the last one is alone. -/
theorem secondCounted_run (number : BlockNumber) (ok : Fin 2 → Bool) :
    Relation.ReflTransGen
      (fun c c' => NextBlockStep number c c' ∧ FanIn.Alone (fun _ => true) c.view c'.view)
      (batchNextBlock 2) (secondCounted number 0 1 ok) := by
  have hsilent : ∀ (c : Collector (Fin 2)) (q : Fin 2), true = false → c.reply q ≠ none :=
    fun _ _ hq => Bool.noConfusion hq
  refine .head ⟨.ask 0 rfl fun _ => hsilent _, ?_⟩ (.head ⟨.ask 1 rfl fun _ => hsilent _, ?_⟩
    (.head ⟨.count 0 (ok 0) rfl rfl, ?_⟩ (.head ⟨.check 0 rfl (Option.some_ne_none (ok 0)) rfl, ?_⟩
      (.single ⟨.count 1 (ok 1) rfl rfl, ?_⟩))))
  · exact fun hfull hfull' => absurd hfull' hfull
  · exact fun hfull hfull' => absurd hfull' hfull
  · exact fun _ hfull' => absurd rfl (hfull' 1)
  · exact fun hfull hfull' => absurd hfull' hfull
  · -- the other handler has checked
    intro _ _ p _ hreply
    fin_cases p
    · rfl
    · exact absurd rfl hreply

/-- The second of two executors refuses the block. -/
theorem fanIn_once_iff_alone_two :
    ∃ c : Collector (Fin 2),
      c.callbacks = [some (SchedulerError.UnknownError.error "Next block:7 with errors! 1")] ∧
      c.view.calls.length = 1 := by
  let ok : Fin 2 → Bool := fun i => i = 0
  let c := (secondCounted 7 0 1 ok).check (nextBlockCheckAndCommit 7) 1
  have hrun := (secondCounted_run 7 ok).tail (c := c)
    ⟨.check 1 rfl (Option.some_ne_none (ok 1)) rfl, fun hfull hfull' => absurd hfull' hfull⟩
  refine ⟨c, by decide, ((fanIn_once_iff_alone 2 7 (by decide)).1.once c hrun).2 ⟨?_, ?_⟩⟩
  · intro p
    fin_cases p
    · exact Option.some_ne_none (ok 0)
    · exact Option.some_ne_none (ok 1)
  · intro p _
    fin_cases p <;> rfl

/-- Two executors accept the block; both replies are counted before either
handler checks, and the callback of `batchNextBlock` is called twice. -/
theorem batchNextBlock_calls_twice :
    ¬ ∀ (n : Nat) (number : BlockNumber), 1 ≤ n →
      FanIn.ExactlyOnce (fun _ => true) (NextBlockStep number) (batchNextBlock n)
        Collector.view ∧
      FanIn.ExactlyOnce Option.isSome (BlockCommitStep number) (batchBlockCommit n)
        Collector.view ∧
      FanIn.ExactlyOnce Option.isSome (AsyncCommit.Step number) ({} : AsyncCommit n)
        AsyncCommit.prepareView := by
  intro hclaim
  let answer := nextBlockCheckAndCommit 7
  let c : Collector (Fin 2) :=
    ((((((batchNextBlock 2).ask 0).ask 1).count 0 true).count 1 true).check answer 0).check answer 1
  have hrun : Relation.ReflTransGen (NextBlockStep 7) (batchNextBlock 2) c := by
    refine .head (.ask 0 rfl fun _ q (hq : true = false) => absurd hq (by decide))
      (.head (.ask 1 rfl fun _ q (hq : true = false) => absurd hq (by decide))
        (.head (.count 0 true rfl rfl) (.head (.count 1 true rfl rfl)
          (.head (.check 0 rfl ?_ rfl) (.single (.check 1 rfl ?_ rfl))))))
    · exact Option.some_ne_none true
    · exact Option.some_ne_none true
  have honce := ((hclaim 2 7 (by decide)).1 c hrun).2.2.1
  exact absurd honce (by decide)

end BcosScheduler
