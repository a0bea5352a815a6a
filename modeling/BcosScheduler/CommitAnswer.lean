/-
BcosScheduler/CommitAnswer.lean

How `asyncCommit` answers its caller.

`Handle` restricts the interleavings of `AsyncCommit.Step` to reply handlers
that run atomically with the storage first.  There every run answers its caller
exactly once, with one exception: a rollback that succeeds ends without an
answer (`asyncCommit_answers_iff`).  What a run leads to depends on the outcomes
of the requests only (`HandlerRun.endsWith`), which is what the scheduler above
sees of it.
-/
import BcosScheduler.AsyncCommit

namespace BcosScheduler

namespace AsyncCommit

variable {n : Nat} {number : BlockNumber} {s s' : AsyncCommit n}

/-! ### Atomic handlers, storage first -/

/-- The outcome of every request. -/
structure Outcomes (n : Nat) where
  prewrite : Bool
  startTS : Nat
  prepare : Participant n → Bool
  commit : Participant n → Bool
  rollback : Participant n → Bool

/-- The handler of an executor may run: it was asked, did not run yet, and the
storage has replied before. -/
structure Collect.Ready (c : Collect n) (i : Fin n) : Prop where
  awaits : c.Awaits (some i)
  unchecked : c.checked i = false
  storage : c.reply none ≠ none

/-- One reply, with the handler of an executor run as a whole. -/
inductive Handle (number : BlockNumber) (o : Outcomes n) : AsyncCommit n → AsyncCommit n → Prop
  | prewrite {s : AsyncCommit n} :
      s.prewrite = none → Handle number o s (s.onPrewrite o.prewrite)
  | prepareStorage {s : AsyncCommit n} : s.prepare.Awaits none →
      Handle number o s (s.onPrepareStorage (o.prepare none) o.startTS)
  | sendPrepare {s : AsyncCommit n} (i : Fin n) {startTS : Nat} :
      s.startTS = some startTS → s.prepare.asked (some i) = false →
      Handle number o s (s.sendPrepare i startTS)
  | prepare {s : AsyncCommit n} (i : Fin n) : Collect.Ready s.prepare i →
      Handle number o s ((s.countPrepare i (o.prepare (some i))).checkPrepare i)
  | commitStorage {s : AsyncCommit n} {pre post : List (SecondPhase n)} {c : Collect n} :
      s.second = pre ++ .commit c :: post → c.Awaits none →
      Handle number o s { s with second := pre ++ .commit (c.count none (o.commit none)) :: post }
  | sendCommit {s : AsyncCommit n} {pre post : List (SecondPhase n)} {c : Collect n}
      (i : Fin n) : s.second = pre ++ .commit c :: post → c.reply none ≠ none →
      c.asked (some i) = false →
      Handle number o s { s with second := pre ++ .commit (c.ask (some i)) :: post
                                 sent := s.sent ++ [.commit i] }
  | commit {s : AsyncCommit n} {pre post : List (SecondPhase n)} {c : Collect n} (i : Fin n) :
      s.second = pre ++ .commit c :: post → Collect.Ready c i →
      Handle number o s { s with
        second := pre ++ .commit ((c.count (some i) (o.commit (some i))).check i) :: post
        answers := s.answers ++ commitAnswer (c.count (some i) (o.commit (some i))) }
  | rollbackStorage {s : AsyncCommit n} {pre post : List (SecondPhase n)} {c : Collect n} :
      s.second = pre ++ .rollback c :: post → c.Awaits none →
      Handle number o s { s with
        second := pre ++ .rollback (c.count none (o.rollback none)) :: post }
  | rollback {s : AsyncCommit n} {pre post : List (SecondPhase n)} {c : Collect n} (i : Fin n) :
      s.second = pre ++ .rollback c :: post → Collect.Ready c i →
      Handle number o s { s with
        second := pre ++ .rollback ((c.count (some i) (o.rollback (some i))).check i) :: post
        answers := s.answers ++ rollbackAnswer number (c.count (some i) (o.rollback (some i))) }

variable {o : Outcomes n}

theorem count_reply_ne_none (c : Collect n) (p : Participant n) (ok : Bool) :
    (c.count p ok).reply p ≠ none := by
  simp [Collect.count]

/-- An atomic handler is an interleaving of its steps. -/
theorem Handle.steps (h : Handle number o s s') :
    Relation.ReflTransGen (Step number) s s' := by
  cases h with
  | prewrite hnone => exact .single (.prewrite _ hnone)
  | prepareStorage ha => exact .single (.prepareStorage _ _ ha)
  | sendPrepare i hts ha => exact .single (.sendPrepare i hts ha)
  | prepare i hr =>
      exact .head (.countPrepare i _ hr.awaits)
        (.single (.checkPrepare i (count_reply_ne_none s.prepare (some i) _) hr.unchecked))
  | commitStorage hs ha => exact .single (.commitStorage _ hs ha)
  | sendCommit i hs hr ha => exact .single (.sendCommit i hs hr ha)
  | @commit pre post c i hs hr =>
      exact .head (.countCommit i _ hs hr.awaits)
        (.single (.checkCommit i rfl (count_reply_ne_none c (some i) _) hr.unchecked))
  | rollbackStorage hs ha => exact .single (.rollbackStorage _ hs ha)
  | @rollback pre post c i hs hr =>
      exact .head (.countRollback i _ hs hr.awaits)
        (.single (.checkRollback i rfl (count_reply_ne_none c (some i) _) hr.unchecked))

/-- A run of atomic handlers. -/
def HandlerRun (number : BlockNumber) (o : Outcomes n) : AsyncCommit n → Prop :=
  Relation.ReflTransGen (Handle number o) {}

theorem HandlerRun.run (h : HandlerRun number o s) : Run number s := by
  induction h with
  | refl => exact .refl
  | tail _ hstep ih => exact ih.trans hstep.steps

/-- Everybody who takes part in the phase has replied. -/
def Collect.Done (c : Collect n) : Prop := ∀ p, c.reply p ≠ none

/-- Everybody who is asked in the course of the run has replied. -/
def AllReplied (s : AsyncCommit n) : Prop :=
  s.prewrite ≠ none ∧ (s.prewrite = some true → Collect.Done s.prepare) ∧
    ∀ c, .commit c ∈ s.second ∨ .rollback c ∈ s.second → Collect.Done c

/-- A phase collects the outcomes `out`, the storage's first. -/
structure Collect.Sound (out : Participant n → Bool) (c : Collect n) : Prop where
  counts : c.status.Counts c.reply
  reply : ∀ p b, c.reply p = some b → b = out p
  storageFirst : ∀ i, c.reply (some i) ≠ none → c.reply none ≠ none

theorem Collect.Sound.init (out : Participant n → Bool) (asked : Participant n → Bool) :
    Collect.Sound out { asked := asked } :=
  ⟨counts_init, by simp, by simp⟩

theorem Collect.Sound.count {out : Participant n → Bool} {c : Collect n}
    (h : Collect.Sound out c) {p : Participant n} (hp : c.reply p = none)
    (hfirst : ∀ i, p = some i → c.reply none ≠ none) :
    Collect.Sound out (c.count p (out p)) := by
  refine ⟨h.counts.count hp _, fun q b hq => ?_, fun i hi => ?_⟩
  · by_cases hqp : q = p
    · subst hqp
      simp only [Collect.count, Function.update_self, Option.some.injEq] at hq
      exact hq.symm
    · simp only [Collect.count, Function.update_of_ne hqp] at hq
      exact h.reply q b hq
  · by_cases hnp : (none : Participant n) = p
    · subst hnp
      exact count_reply_ne_none c none _
    · simp only [Collect.count, Function.update_of_ne hnp]
      rcases p with _ | j
      · exact absurd rfl hnp
      · exact hfirst j rfl

/-- When a phase is done, the failure counter tells whether somebody failed. -/
theorem Collect.Sound.failed_iff {out : Participant n → Bool} {c : Collect n}
    (h : Collect.Sound out c) (hdone : Collect.Done c) :
    0 < c.status.failed ↔ ∃ p, out p = false := by
  rw [h.counts.failed_pos_iff]
  constructor
  · rintro ⟨p, hp⟩
    exact ⟨p, (h.reply p false hp).symm⟩
  · rintro ⟨p, hp⟩
    obtain ⟨b, hb⟩ := Option.ne_none_iff_exists'.mp (hdone p)
    exact ⟨p, by rw [hb, h.reply p b hb, hp]⟩

/-- Storage first: the phase is not done when the storage's reply is counted. -/
theorem Collect.Sound.not_done {out : Participant n → Bool} {c : Collect n} (hn : 1 ≤ n)
    (h : Collect.Sound out c) (hp : c.reply none = none) (ok : Bool) :
    ¬ Collect.Done (c.count none ok) := by
  intro hdone
  have h0 := hdone (some ⟨0, hn⟩)
  simp only [Collect.count, Function.update_of_ne (by simp : some (⟨0, hn⟩ : Fin n) ≠ none)] at h0
  exact h.storageFirst _ h0 hp

/-- The counters are not full while a reply is missing. -/
theorem Collect.Sound.not_full {out : Participant n → Bool} {c : Collect n}
    (h : Collect.Sound out c) {p : Participant n} (hp : c.reply p = none) :
    c.status.full = false := by
  rw [← Bool.not_eq_true, h.counts.full_iff]
  exact fun hdone => hdone p hp

theorem Collect.Sound.ask {out : Participant n → Bool} {c : Collect n}
    (h : Collect.Sound out c) (p : Participant n) : Collect.Sound out (c.ask p) :=
  ⟨h.counts, h.reply, h.storageFirst⟩

theorem Collect.Sound.check {out : Participant n → Bool} {c : Collect n}
    (h : Collect.Sound out c) (i : Fin n) : Collect.Sound out (c.check i) :=
  ⟨h.counts, h.reply, h.storageFirst⟩

/-- The handler of an executor as a whole. -/
theorem Collect.Sound.handle {out : Participant n → Bool} {c : Collect n} {i : Fin n}
    (h : Collect.Sound out c) (hr : Collect.Ready c i) :
    Collect.Sound out (c.count (some i) (out (some i))) :=
  h.count hr.awaits.2 fun _ _ => hr.storage

/-- Where a run of atomic handlers stands. -/
inductive Stage (number : BlockNumber) (o : Outcomes n) (s : AsyncCommit n) : Prop
  | started : s.prewrite = none → s.prepare = {} → s.second = [] → s.answers = [] →
      Stage number o s
  | refused : s.prewrite = some false → o.prewrite = false → s.prepare = {} → s.second = [] →
      s.answers = [some (SchedulerError.PrewriteBlockError.error "Prewrite block error!")] →
      Stage number o s
  | preparing : s.prewrite = some true → o.prewrite = true → ¬ Collect.Done s.prepare →
      s.second = [] → s.answers = [] → Stage number o s
  | committing (c : Collect n) : s.prewrite = some true → o.prewrite = true →
      Collect.Done s.prepare → (∀ p, o.prepare p = true) → s.second = [.commit c] →
      Collect.Sound o.commit c → s.answers = commitAnswer c → Stage number o s
  | rollingBack (c : Collect n) : s.prewrite = some true → o.prewrite = true →
      Collect.Done s.prepare → (∃ p, o.prepare p = false) → s.second = [.rollback c] →
      Collect.Sound o.rollback c → s.answers = rollbackAnswer number c → Stage number o s

/-- A done prepare phase hears of no further replies. -/
theorem Collect.Done.not_awaits {c : Collect n} (h : Collect.Done c) {p : Participant n} :
    ¬ c.Awaits p :=
  fun ha => h p ha.2

theorem not_awaits_init {p : Participant n} : ¬ ({} : Collect n).Awaits p :=
  fun ha => Bool.false_ne_true ha.1

theorem commitAnswer_of_not_full {c : Collect n} (h : c.status.full = false) :
    commitAnswer c = [] := by
  simp [commitAnswer, h]

theorem rollbackAnswer_of_not_full {c : Collect n} (h : c.status.full = false) :
    rollbackAnswer number c = [] := by
  simp [rollbackAnswer, h]

/-- A prepare reply of the storage or of an executor reaches only a run that is
preparing. -/
theorem Stage.preparing_of_awaits (h : Stage number o s) {p : Participant n}
    (ha : s.prepare.Awaits p) :
    s.prewrite = some true ∧ o.prewrite = true ∧ s.second = [] ∧ s.answers = [] := by
  cases h with
  | started _ hprepare => exact absurd (hprepare ▸ ha) not_awaits_init
  | refused _ _ hprepare => exact absurd (hprepare ▸ ha) not_awaits_init
  | preparing hpre ho _ hsecond hanswers => exact ⟨hpre, ho, hsecond, hanswers⟩
  | committing c _ _ hdone => exact absurd ha hdone.not_awaits
  | rollingBack c _ _ hdone => exact absurd ha hdone.not_awaits

/-- A commit in flight is the only second phase. -/
theorem Stage.commit_of_mem (h : Stage number o s) {pre post : List (SecondPhase n)}
    {c : Collect n} (hs : s.second = pre ++ .commit c :: post) :
    pre = [] ∧ post = [] ∧ s.prewrite = some true ∧ o.prewrite = true ∧
      Collect.Done s.prepare ∧ (∀ p, o.prepare p = true) ∧ Collect.Sound o.commit c ∧
      s.answers = commitAnswer c := by
  cases h with
  | started _ _ hsecond => simp [hsecond] at hs
  | refused _ _ _ hsecond => simp [hsecond] at hs
  | preparing _ _ _ hsecond => simp [hsecond] at hs
  | committing c' hpre ho hdone hok hsecond hsound hanswers =>
      rw [hsecond] at hs
      rcases pre with _ | ⟨d, pre⟩
      · simp only [List.nil_append, List.cons.injEq, SecondPhase.commit.injEq] at hs
        obtain ⟨rfl, rfl⟩ := hs
        exact ⟨rfl, rfl, hpre, ho, hdone, hok, hsound, hanswers⟩
      · simp at hs
  | rollingBack c' _ _ _ _ hsecond =>
      rw [hsecond] at hs
      rcases pre with _ | ⟨d, pre⟩ <;> simp at hs

theorem Stage.rollback_of_mem (h : Stage number o s) {pre post : List (SecondPhase n)}
    {c : Collect n} (hs : s.second = pre ++ .rollback c :: post) :
    pre = [] ∧ post = [] ∧ s.prewrite = some true ∧ o.prewrite = true ∧
      Collect.Done s.prepare ∧ (∃ p, o.prepare p = false) ∧ Collect.Sound o.rollback c ∧
      s.answers = rollbackAnswer number c := by
  cases h with
  | started _ _ hsecond => simp [hsecond] at hs
  | refused _ _ _ hsecond => simp [hsecond] at hs
  | preparing _ _ _ hsecond => simp [hsecond] at hs
  | committing c' _ _ _ _ hsecond =>
      rw [hsecond] at hs
      rcases pre with _ | ⟨d, pre⟩ <;> simp at hs
  | rollingBack c' hpre ho hdone hbad hsecond hsound hanswers =>
      rw [hsecond] at hs
      rcases pre with _ | ⟨d, pre⟩
      · simp only [List.nil_append, List.cons.injEq, SecondPhase.rollback.injEq] at hs
        obtain ⟨rfl, rfl⟩ := hs
        exact ⟨rfl, rfl, hpre, ho, hdone, hbad, hsound, hanswers⟩
      · simp at hs

/-- `checkAndCommit` after a counted reply: it starts the second phase when
this was the last reply. -/
theorem stage_checkAndCommit (hpre : s.prewrite = some true) (ho : o.prewrite = true)
    (hsecond : s.second = []) (hanswers : s.answers = [])
    (hsound : Collect.Sound o.prepare s.prepare) : Stage number o s.checkAndCommit := by
  have hcounts := hsound.counts
  unfold AsyncCommit.checkAndCommit
  split_ifs with hfull hfailed
  · -- a rollback that was just started has no replies, hence no answer
    have hdone : Collect.Done s.prepare := hcounts.full_iff.mp hfull
    refine .rollingBack _ hpre ho hdone ((hsound.failed_iff hdone).mp hfailed)
      (by rw [batchBlockRollback, hsecond]; rfl) (.init _ _) ?_
    rw [rollbackAnswer_of_not_full (Collect.Sound.not_full (.init o.rollback _) (p := none) rfl)]
    exact hanswers
  · have hdone : Collect.Done s.prepare := hcounts.full_iff.mp hfull
    have hok : ∀ p, o.prepare p = true := by
      intro p
      by_contra hp
      exact hfailed ((hsound.failed_iff hdone).mpr ⟨p, Bool.not_eq_true _ ▸ hp⟩)
    refine .committing _ hpre ho hdone hok (by rw [batchBlockCommit, hsecond]; rfl)
      ((Collect.Sound.init _ _).ask none) ?_
    rw [commitAnswer_of_not_full
      (Collect.Sound.not_full ((Collect.Sound.init o.commit _).ask none) (p := none) rfl)]
    exact hanswers
  · refine .preparing hpre ho (fun hdone => hfull ?_) hsecond hanswers
    exact hcounts.full_iff.mpr hdone

/-- Invariant of a run of atomic handlers. -/
structure HandlerInv (number : BlockNumber) (o : Outcomes n) (s : AsyncCommit n) : Prop where
  inv : Inv s
  sound : Collect.Sound o.prepare s.prepare
  stage : Stage number o s

theorem HandlerInv.init : HandlerInv number o ({} : AsyncCommit n) :=
  ⟨.init, .init _ _, .started rfl rfl rfl rfl⟩

/-- A prepare request is sent only while the run prepares or later. -/
theorem HandlerInv.sendPrepare (h : HandlerInv number o s) {i : Fin n} {startTS : Nat}
    (hts : s.startTS = some startTS) : Stage number o (s.sendPrepare i startTS) := by
  have hstorage : s.prepare.reply none ≠ none := h.inv.startTS.mpr (by simp [hts])
  cases h.stage with
  | started _ hprepare => exact absurd (by rw [hprepare]) hstorage
  | refused _ _ hprepare => exact absurd (by rw [hprepare]) hstorage
  | preparing hpre ho hdone hsecond hanswers =>
      exact .preparing hpre ho hdone hsecond hanswers
  | committing c hpre ho hdone hok hsecond hsound hanswers =>
      exact .committing c hpre ho hdone hok hsecond hsound hanswers
  | rollingBack c hpre ho hdone hbad hsecond hsound hanswers =>
      exact .rollingBack c hpre ho hdone hbad hsecond hsound hanswers

theorem Handle.inv (hn : 1 ≤ n) (hh : Handle number o s s') (h : HandlerInv number o s) :
    HandlerInv number o s' := by
  have hinv : Inv s' := Inv.steps h.inv hh.steps
  cases hh with
  | prewrite hnone =>
      refine ⟨hinv, ?_, ?_⟩
      · unfold onPrewrite
        split_ifs
        · exact h.sound.ask none
        · exact h.sound
      · cases h.stage with
        | started _ hprepare hsecond hanswers =>
            rcases ho : o.prewrite with _ | _
            · exact .refused rfl ho hprepare hsecond (by simp [onPrewrite, hanswers])
            · refine .preparing rfl ho (fun hdone => hdone none ?_) hsecond hanswers
              show (s.prepare.ask none).reply none = none
              rw [hprepare]
              rfl
        | refused hpre => simp [hpre] at hnone
        | preparing hpre => simp [hpre] at hnone
        | committing c hpre => simp [hpre] at hnone
        | rollingBack c hpre => simp [hpre] at hnone
  | prepareStorage ha =>
      obtain ⟨hpre, ho, hsecond, hanswers⟩ := h.stage.preparing_of_awaits ha
      exact ⟨hinv, h.sound.count ha.2 (by simp),
        .preparing hpre ho (h.sound.not_done hn ha.2 _) hsecond hanswers⟩
  | sendPrepare i hts ha => exact ⟨hinv, h.sound.ask _, h.sendPrepare hts⟩
  | prepare i hr =>
      obtain ⟨hpre, ho, hsecond, hanswers⟩ := h.stage.preparing_of_awaits hr.awaits
      have hsound := (h.sound.handle hr).check i
      refine ⟨hinv, ?_, stage_checkAndCommit hpre ho hsecond hanswers hsound⟩
      unfold checkPrepare AsyncCommit.checkAndCommit
      split_ifs <;> exact hsound
  | @commitStorage pre post c hs ha =>
      obtain ⟨rfl, rfl, hpre, ho, hdone, hok, hsound, hanswers⟩ := h.stage.commit_of_mem hs
      -- an executor's reply is missing before and after, so there is no answer yet
      refine ⟨hinv, h.sound, .committing _ hpre ho hdone hok rfl (hsound.count ha.2 (by simp)) ?_⟩
      rw [commitAnswer_of_not_full]
      · exact hanswers.trans (commitAnswer_of_not_full (hsound.not_full ha.2))
      · rw [← Bool.not_eq_true, (hsound.count ha.2 (by simp)).counts.full_iff]
        exact hsound.not_done hn ha.2 _
  | @sendCommit pre post c i hs hr ha =>
      obtain ⟨rfl, rfl, hpre, ho, hdone, hok, hsound, hanswers⟩ := h.stage.commit_of_mem hs
      exact ⟨hinv, h.sound, .committing _ hpre ho hdone hok rfl (hsound.ask _) hanswers⟩
  | @commit pre post c i hs hr =>
      obtain ⟨rfl, rfl, hpre, ho, hdone, hok, hsound, hanswers⟩ := h.stage.commit_of_mem hs
      refine ⟨hinv, h.sound,
        .committing _ hpre ho hdone hok rfl ((hsound.handle hr).check i) ?_⟩
      -- the reply of this executor was missing, so the answer is given now or later
      rw [hanswers, commitAnswer_of_not_full (hsound.not_full hr.awaits.2)]
      rfl
  | @rollbackStorage pre post c hs ha =>
      obtain ⟨rfl, rfl, hpre, ho, hdone, hbad, hsound, hanswers⟩ := h.stage.rollback_of_mem hs
      refine ⟨hinv, h.sound,
        .rollingBack _ hpre ho hdone hbad rfl (hsound.count ha.2 (by simp)) ?_⟩
      rw [rollbackAnswer_of_not_full]
      · exact hanswers.trans (rollbackAnswer_of_not_full (hsound.not_full ha.2))
      · rw [← Bool.not_eq_true, (hsound.count ha.2 (by simp)).counts.full_iff]
        exact hsound.not_done hn ha.2 _
  | @rollback pre post c i hs hr =>
      obtain ⟨rfl, rfl, hpre, ho, hdone, hbad, hsound, hanswers⟩ := h.stage.rollback_of_mem hs
      refine ⟨hinv, h.sound,
        .rollingBack _ hpre ho hdone hbad rfl ((hsound.handle hr).check i) ?_⟩
      rw [hanswers, rollbackAnswer_of_not_full (hsound.not_full hr.awaits.2)]
      rfl

theorem HandlerRun.inv (hn : 1 ≤ n) (hrun : HandlerRun number o s) : HandlerInv number o s := by
  induction hrun with
  | refl => exact .init
  | tail _ hstep ih => exact hstep.inv hn ih

/-- The answer of a commit whose replies are all in. -/
theorem commitAnswer_done {c : Collect n} (hsound : Collect.Sound o.commit c)
    (hdone : Collect.Done c) :
    (commitAnswer c).length = 1 ∧ (commitAnswer c = [none] ↔ ∀ p, o.commit p = true) := by
  have hfull : c.status.full = true := hsound.counts.full_iff.mpr hdone
  have hfailed := hsound.failed_iff hdone
  unfold commitAnswer
  rw [if_pos hfull]
  split_ifs with hf
  · obtain ⟨p, hp⟩ := hfailed.mp hf
    refine ⟨rfl, ?_⟩
    simp only [List.cons.injEq, reduceCtorEq, false_and, false_iff]
    exact fun hall => by simp [hall p] at hp
  · refine ⟨rfl, iff_of_true rfl fun p => ?_⟩
    by_contra hp
    exact hf (hfailed.mpr ⟨p, Bool.not_eq_true _ ▸ hp⟩)

/-- The answer of a rollback whose replies are all in: none if it succeeded. -/
theorem rollbackAnswer_done (number : BlockNumber) {c : Collect n} (hsound : Collect.Sound o.rollback c)
    (hdone : Collect.Done c) :
    ((rollbackAnswer number c).length = 1 ↔ ¬ ∀ p, o.rollback p = true) ∧
      rollbackAnswer number c ≠ [none] := by
  have hfull : c.status.full = true := hsound.counts.full_iff.mpr hdone
  have hfailed := hsound.failed_iff hdone
  unfold rollbackAnswer
  split_ifs with hf
  · obtain ⟨p, hp⟩ := hfailed.mp hf.2
    refine ⟨iff_of_true rfl fun hall => by simp [hall p] at hp, by simp⟩
  · refine ⟨iff_of_false (by simp) (not_not.mpr fun p => ?_), by simp⟩
    by_contra hp
    exact hf ⟨hfull, hfailed.mpr ⟨p, Bool.not_eq_true _ ▸ hp⟩⟩

/-- **When `asyncCommit` answers.**  In every run of atomic handlers with the
storage first, once everybody asked has replied, the callback was called
exactly once, with a null error iff prewrite, prepares and commits succeeded,
except when some prepare failed and all rollbacks succeeded. -/
theorem asyncCommit_answers_iff (hn : 1 ≤ n) (hrun : HandlerRun number o s)
    (hall : s.AllReplied) :
    (s.answers.length = 1 ∧
      (s.answers = [none] ↔
        o.prewrite = true ∧ (∀ p, o.prepare p = true) ∧ ∀ p, o.commit p = true)) ↔
    ¬ (o.prewrite = true ∧ (∃ p, o.prepare p = false) ∧ ∀ p, o.rollback p = true) := by
  have h := hrun.inv hn
  obtain ⟨hprewrite, hprepare, hsecondDone⟩ := hall
  -- everybody has replied, so the run was refused or is through its second phase
  cases h.stage with
  | started hnone => exact absurd hnone hprewrite
  | refused _ ho _ _ hanswers => simp [hanswers, ho]
  | preparing hpre _ hdone => exact absurd (hprepare hpre) hdone
  | committing c _ ho _ hok hsecond hsound hanswers =>
      have hdone := hsecondDone c (Or.inl (by simp [hsecond]))
      obtain ⟨hone, hnull⟩ := commitAnswer_done hsound hdone
      rw [hanswers]
      refine iff_of_true ⟨hone, hnull.trans ?_⟩ ?_
      · exact ⟨fun hc => ⟨ho, hok, hc⟩, fun hc => hc.2.2⟩
      · rintro ⟨-, ⟨p, hp⟩, -⟩
        rw [hok p] at hp
        cases hp
  | rollingBack c _ ho _ hbad hsecond hsound hanswers =>
      have hdone := hsecondDone c (Or.inr (by simp [hsecond]))
      obtain ⟨hone, hnull⟩ := rollbackAnswer_done number hsound hdone
      have hnot : ¬ (o.prewrite = true ∧ (∀ p, o.prepare p = true) ∧ ∀ p, o.commit p = true) := by
        rintro ⟨-, hok, -⟩
        obtain ⟨p, hp⟩ := hbad
        rw [hok p] at hp
        cases hp
      rw [hanswers, and_iff_left (iff_of_false hnull hnot), hone]
      exact not_congr ⟨fun hr => ⟨ho, hbad, hr⟩, fun hr => hr.2.2⟩

/-- One executor; everything succeeds, except its prepare if not `ok`. -/
def oneExecutor (ok : Bool) : Outcomes 1 where
  prewrite := true
  startTS := 5
  prepare := fun p => p.isNone || ok
  commit := fun _ => true
  rollback := fun _ => true

theorem decided_run (ok : Bool) : HandlerRun 7 (oneExecutor ok) (decided ok) := by
  refine .head (.prewrite rfl) (.head (.prepareStorage ⟨rfl, rfl⟩)
    (.head (.sendPrepare 0 rfl rfl) (.single (.prepare 0 ?_))))
  exact ⟨⟨rfl, rfl⟩, rfl, Option.some_ne_none true⟩

/-- The commit of `oneExecutor true` to its end. -/
def committed : AsyncCommit 1 :=
  let c : Collect 1 := ((Collect.ask {} none).count none true).ask (some 0)
  { decided true with
    second := [.commit ((c.count (some 0) true).check 0)]
    sent := (decided true).sent ++ [.commit 0]
    answers := (decided true).answers ++ commitAnswer (c.count (some 0) true) }

theorem committed_run : HandlerRun 7 (oneExecutor true) committed := by
  have hsecond (c : Collect 1) : [SecondPhase.commit c] = [] ++ .commit c :: [] := rfl
  have hstorage : HandlerRun 7 (oneExecutor true) _ :=
    (decided_run true).tail (.commitStorage (hsecond _) ⟨rfl, rfl⟩)
  have hsent : HandlerRun 7 (oneExecutor true) _ :=
    hstorage.tail (.sendCommit 0 (hsecond _) (Option.some_ne_none true) rfl)
  have hdone : HandlerRun 7 (oneExecutor true) _ :=
    hsent.tail (.commit 0 (hsecond _) ⟨⟨rfl, rfl⟩, rfl, Option.some_ne_none true⟩)
  exact hdone

/-- A commit with one executor answers a null error, once. -/
theorem asyncCommit_answers_committed :
    committed.answers = [none] ∧ committed.answers.length = 1 := by
  have hall : committed.AllReplied := by
    refine ⟨by decide, fun _ => by unfold Collect.Done; decide, ?_⟩
    rintro c (hc | hc)
    · obtain rfl := SecondPhase.commit.inj (List.mem_singleton.mp hc)
      unfold Collect.Done
      decide
    · cases List.mem_singleton.mp hc
  have h := (asyncCommit_answers_iff (by decide) committed_run hall).mpr (by decide)
  exact ⟨h.2.mpr (by decide), h.1⟩

/-- The rollback of `oneExecutor false` to its end. -/
def rolledBack : AsyncCommit 1 :=
  let c : Collect 1 := Collect.count { asked := fun _ => true } none true
  { decided false with
    second := [.rollback ((c.count (some 0) true).check 0)]
    answers := (decided false).answers ++ rollbackAnswer 7 (c.count (some 0) true) }

theorem rolledBack_run : HandlerRun 7 (oneExecutor false) rolledBack := by
  have hsecond (c : Collect 1) : [SecondPhase.rollback c] = [] ++ .rollback c :: [] := rfl
  have hstorage : HandlerRun 7 (oneExecutor false) _ :=
    (decided_run false).tail (.rollbackStorage (hsecond _) ⟨rfl, rfl⟩)
  have hdone : HandlerRun 7 (oneExecutor false) _ :=
    hstorage.tail (.rollback 0 (hsecond _) ⟨⟨rfl, rfl⟩, rfl, Option.some_ne_none true⟩)
  exact hdone

/-- A failed prepare followed by a good rollback is never answered. -/
theorem asyncCommit_silent_rollback :
    ¬ ∀ (n : Nat) (number : BlockNumber) (o : Outcomes n) (s : AsyncCommit n), 1 ≤ n →
      HandlerRun number o s → s.AllReplied →
      s.answers.length = 1 ∧
        (s.answers = [none] ↔
          o.prewrite = true ∧ (∀ p, o.prepare p = true) ∧ ∀ p, o.commit p = true) := by
  intro hclaim
  have hall : rolledBack.AllReplied := by
    refine ⟨by decide, fun _ => by unfold Collect.Done; decide, ?_⟩
    rintro c (hc | hc)
    · cases List.mem_singleton.mp hc
    · obtain rfl := SecondPhase.rollback.inj (List.mem_singleton.mp hc)
      unfold Collect.Done
      decide
  have h := (hclaim 1 7 _ rolledBack (by decide) rolledBack_run hall).1
  exact absurd h (by decide)

/-! ### The result seen by the scheduler -/

/-- How an `asyncCommit` with these outcomes ends. -/
def Outcomes.result (o : Outcomes n) : CommitResult :=
  if o.prewrite = false then .failed false
  else if ∃ p, o.prepare p = false then
    if ∀ p, o.rollback p = true then .rolledBack else .failed false
  else if ∀ p, o.commit p = true then .committed
  else .failed (o.commit none)

/-- The storage replied to a commit with success. -/
def StorageCommitted (s : AsyncCommit n) : Prop :=
  ∃ c, .commit c ∈ s.second ∧ c.reply none = some true

/-- What a result says about the answers and the storage. -/
def EndsWith (s : AsyncCommit n) : CommitResult → Prop
  | .committed => s.answers = [none] ∧ s.StorageCommitted
  | .failed storage => (∃ e, s.answers = [some e]) ∧ (storage = true ↔ s.StorageCommitted)
  | .rolledBack => s.answers = [] ∧ ¬ s.StorageCommitted

theorem storageCommitted_iff {c : Collect n} (hsecond : s.second = [.commit c])
    (hsound : Collect.Sound o.commit c) (hdone : Collect.Done c) :
    s.StorageCommitted ↔ o.commit none = true := by
  constructor
  · rintro ⟨c', hc', hreply⟩
    rw [hsecond] at hc'
    obtain rfl := SecondPhase.commit.inj (List.mem_singleton.mp hc')
    exact (hsound.reply none true hreply).symm
  · intro hok
    obtain ⟨b, hb⟩ := Option.ne_none_iff_exists'.mp (hdone none)
    exact ⟨c, by simp [hsecond], by rw [hb, hsound.reply none b hb, hok]⟩

/-- The answer of a callback that is called once with an error. -/
theorem exists_error {answers : List (Option Error)} (hone : answers.length = 1)
    (herr : answers ≠ [none]) : ∃ e, answers = [some e] := by
  obtain ⟨a, rfl⟩ := List.length_eq_one_iff.mp hone
  rcases a with _ | e
  · exact absurd rfl herr
  · exact ⟨e, rfl⟩

/-- Every run of atomic handlers ends with the result of its outcomes. -/
theorem HandlerRun.endsWith (hn : 1 ≤ n) (hrun : HandlerRun number o s) (hall : s.AllReplied) :
    s.EndsWith o.result := by
  have h := hrun.inv hn
  obtain ⟨hprewrite, hprepare, hsecondDone⟩ := hall
  unfold Outcomes.result
  cases h.stage with
  | started hnone => exact absurd hnone hprewrite
  | refused _ ho _ hsecond hanswers =>
      rw [if_pos ho]
      refine ⟨⟨_, hanswers⟩, iff_of_false (by simp) ?_⟩
      rintro ⟨c, hc, -⟩
      simp [hsecond] at hc
  | preparing hpre _ hdone => exact absurd (hprepare hpre) hdone
  | committing c _ ho _ hok hsecond hsound hanswers =>
      have hdone := hsecondDone c (Or.inl (by simp [hsecond]))
      have hstorage := storageCommitted_iff hsecond hsound hdone
      obtain ⟨hone, hnull⟩ := commitAnswer_done hsound hdone
      rw [if_neg (by simp [ho]), if_neg (by simp [hok])]
      split_ifs with hcommit
      · exact ⟨hanswers.trans (hnull.mpr hcommit), hstorage.mpr (hcommit none)⟩
      · refine ⟨exists_error (by rw [hanswers]; exact hone) ?_, hstorage.symm⟩
        rw [hanswers]
        exact fun hc => hcommit (hnull.mp hc)
  | rollingBack c _ ho _ hbad hsecond hsound hanswers =>
      have hdone := hsecondDone c (Or.inr (by simp [hsecond]))
      obtain ⟨hone, hnull⟩ := rollbackAnswer_done number hsound hdone
      have hstorage : ¬ s.StorageCommitted := by
        rintro ⟨c', hc', -⟩
        simp [hsecond] at hc'
      rw [if_neg (by simp [ho]), if_pos hbad]
      split_ifs with hrollback
      · -- all rollbacks succeeded: the continuation of the rollback does nothing
        refine ⟨?_, hstorage⟩
        have hfailed : ¬ 0 < c.status.failed := by
          rw [hsound.failed_iff hdone]
          rintro ⟨p, hp⟩
          simp [hrollback p] at hp
        rw [hanswers, rollbackAnswer, if_neg fun hf => hfailed hf.2]
      · refine ⟨exists_error ?_ ?_, iff_of_false (by simp) hstorage⟩
        · rw [hanswers]
          exact hone.mpr hrollback
        · rw [hanswers]
          exact hnull

end AsyncCommit

end BcosScheduler
