/-
BcosScheduler/AsyncCommit.lean

Two-phase commit of a block (`BlockExecutive::asyncCommit`, with
`batchBlockCommit` and `batchBlockRollback`) between the scheduler, the
storage and `n` executors.

The prewrite is followed by the prepare of the storage; its reply handler
asks all executors to prepare.  Every executor's handler counts its reply and
runs `checkAndCommit`, which, once all participants were counted, starts the
commit or the rollback.  These are collected with counters of their own.  The
counter of a reply and the `checkAndCommit` that follows are separate steps
(`Step`), so two late handlers may both find the counters full and start the
second phase twice; the decision is the same both times
(`asyncCommit_decision`).
-/
import BcosScheduler.CommitStatus
import Mathlib.Data.Fintype.Option
import Mathlib.Logic.Relation

namespace BcosScheduler

variable {n : Nat}

/-- The storage (`none`) and the executors. -/
abbrev Participant (n : Nat) := Option (Fin n)

/-- The requests of `asyncCommit` to its participants. -/
inductive CommitRequest (n : Nat)
  | prepareStorage
  | prepare (i : Fin n) (startTS : Nat)
  | commitStorage
  | commit (i : Fin n)
  | rollbackStorage
  | rollback (i : Fin n)
  deriving DecidableEq, Repr

/-- How an `asyncCommit` ends: with a null error, with an error and the storage
committed or not, or with a rollback that is not answered. -/
inductive CommitResult
  | committed
  | failed (storageCommitted : Bool)
  | rolledBack
  deriving DecidableEq, Repr

/-- One phase: its counters, who was asked, whose reply was counted, and which
executors' handlers ran `checkAndCommit`. -/
structure Collect (n : Nat) where
  status : CommitStatus := { total := 1 + n }
  asked : Participant n → Bool := fun _ => false
  reply : Participant n → Option Bool := fun _ => none
  checked : Fin n → Bool := fun _ => false

namespace Collect

def ask (c : Collect n) (p : Participant n) : Collect n :=
  { c with asked := Function.update c.asked p true }

/-- First step of a reply handler. -/
def count (c : Collect n) (p : Participant n) (ok : Bool) : Collect n :=
  { c with status := c.status.count ok, reply := Function.update c.reply p (some ok) }

def check (c : Collect n) (i : Fin n) : Collect n :=
  { c with checked := Function.update c.checked i true }

/-- The participant was asked and its reply was not counted yet. -/
def Awaits (c : Collect n) (p : Participant n) : Prop := c.asked p = true ∧ c.reply p = none

end Collect

/-- A started second phase. -/
inductive SecondPhase (n : Nat)
  | commit (c : Collect n)
  | rollback (c : Collect n)

/-- State of one `asyncCommit`.  `sent` are the requests sent so far,
`answers` the calls of its callback with their error. -/
structure AsyncCommit (n : Nat) where
  prewrite : Option Bool := none
  prepare : Collect n := {}
  startTS : Option Nat := none
  second : List (SecondPhase n) := []
  sent : List (CommitRequest n) := []
  answers : List (Option Error) := []

namespace AsyncCommit

/-! ### The handlers -/

/-- The prewrite callback: answer an error, else ask the storage to prepare. -/
def onPrewrite (s : AsyncCommit n) (ok : Bool) : AsyncCommit n :=
  if ok then
    { s with prewrite := some true, prepare := s.prepare.ask none,
             sent := s.sent ++ [.prepareStorage] }
  else
    { s with prewrite := some false
             answers := s.answers ++
               [some (SchedulerError.PrewriteBlockError.error "Prewrite block error!")] }

/-- The storage's prepare handler counts the reply, good or bad. -/
def onPrepareStorage (s : AsyncCommit n) (ok : Bool) (startTS : Nat) : AsyncCommit n :=
  { s with prepare := s.prepare.count none ok, startTS := some startTS }

/-- One turn of its loop over the executors. -/
def sendPrepare (s : AsyncCommit n) (i : Fin n) (startTS : Nat) : AsyncCommit n :=
  { s with prepare := s.prepare.ask (some i), sent := s.sent ++ [.prepare i startTS] }

/-- An executor's prepare handler counts the reply. -/
def countPrepare (s : AsyncCommit n) (i : Fin n) (ok : Bool) : AsyncCommit n :=
  { s with prepare := s.prepare.count (some i) ok }

/-- `batchBlockCommit` starts with the storage. -/
def batchBlockCommit (s : AsyncCommit n) : AsyncCommit n :=
  { s with second := s.second ++ [.commit (Collect.ask {} none)]
           sent := s.sent ++ [.commitStorage] }

/-- `batchBlockRollback` asks everybody. -/
def batchBlockRollback (s : AsyncCommit n) : AsyncCommit n :=
  { s with second := s.second ++ [.rollback { asked := fun _ => true }]
           sent := s.sent ++ .rollbackStorage :: (List.finRange n).map .rollback }

/-- `checkAndCommit` of the prepare phase. -/
def checkAndCommit (s : AsyncCommit n) : AsyncCommit n :=
  if s.prepare.status.full then
    if 0 < s.prepare.status.failed then s.batchBlockRollback else s.batchBlockCommit
  else s

/-- The second step of an executor's prepare handler. -/
def checkPrepare (s : AsyncCommit n) (i : Fin n) : AsyncCommit n :=
  { s with prepare := s.prepare.check i }.checkAndCommit

/-- What the callback of a commit hands to the caller. -/
def commitAnswer (c : Collect n) : List (Option Error) :=
  if c.status.full then
    if 0 < c.status.failed then
      [some (SchedulerError.UnknownError.error "Commit block to storage failed!")]
    else [none]
  else []

/-- What the callback of a rollback hands to the caller: only an error. -/
def rollbackAnswer (number : BlockNumber) (c : Collect n) : List (Option Error) :=
  if c.status.full ∧ 0 < c.status.failed then
    [some (SchedulerError.RollbackError.error ("Rollback block:" ++ toString number ++
      " with errors! " ++ toString c.status.failed))]
  else []

/-! ### All interleavings -/

variable (number : BlockNumber)

/-- One step of the scheduler or of a reply handler. -/
inductive Step : AsyncCommit n → AsyncCommit n → Prop
  | prewrite {s : AsyncCommit n} (ok : Bool) : s.prewrite = none → Step s (s.onPrewrite ok)
  | prepareStorage {s : AsyncCommit n} (ok : Bool) (startTS : Nat) :
      s.prepare.Awaits none → Step s (s.onPrepareStorage ok startTS)
  | sendPrepare {s : AsyncCommit n} (i : Fin n) {startTS : Nat} :
      s.startTS = some startTS → s.prepare.asked (some i) = false →
      Step s (s.sendPrepare i startTS)
  | countPrepare {s : AsyncCommit n} (i : Fin n) (ok : Bool) :
      s.prepare.Awaits (some i) → Step s (s.countPrepare i ok)
  | checkPrepare {s : AsyncCommit n} (i : Fin n) :
      s.prepare.reply (some i) ≠ none → s.prepare.checked i = false →
      Step s (s.checkPrepare i)
  | commitStorage {s : AsyncCommit n} {pre post : List (SecondPhase n)} {c : Collect n}
      (ok : Bool) : s.second = pre ++ .commit c :: post → c.Awaits none →
      Step s { s with second := pre ++ .commit (c.count none ok) :: post }
  | sendCommit {s : AsyncCommit n} {pre post : List (SecondPhase n)} {c : Collect n}
      (i : Fin n) : s.second = pre ++ .commit c :: post → c.reply none ≠ none →
      c.asked (some i) = false →
      Step s { s with second := pre ++ .commit (c.ask (some i)) :: post
                      sent := s.sent ++ [.commit i] }
  | countCommit {s : AsyncCommit n} {pre post : List (SecondPhase n)} {c : Collect n}
      (i : Fin n) (ok : Bool) : s.second = pre ++ .commit c :: post → c.Awaits (some i) →
      Step s { s with second := pre ++ .commit (c.count (some i) ok) :: post }
  | checkCommit {s : AsyncCommit n} {pre post : List (SecondPhase n)} {c : Collect n}
      (i : Fin n) : s.second = pre ++ .commit c :: post → c.reply (some i) ≠ none →
      c.checked i = false →
      Step s { s with second := pre ++ .commit (c.check i) :: post
                      answers := s.answers ++ commitAnswer c }
  | rollbackStorage {s : AsyncCommit n} {pre post : List (SecondPhase n)} {c : Collect n}
      (ok : Bool) : s.second = pre ++ .rollback c :: post → c.Awaits none →
      Step s { s with second := pre ++ .rollback (c.count none ok) :: post }
  | countRollback {s : AsyncCommit n} {pre post : List (SecondPhase n)} {c : Collect n}
      (i : Fin n) (ok : Bool) : s.second = pre ++ .rollback c :: post → c.Awaits (some i) →
      Step s { s with second := pre ++ .rollback (c.count (some i) ok) :: post }
  | checkRollback {s : AsyncCommit n} {pre post : List (SecondPhase n)} {c : Collect n}
      (i : Fin n) : s.second = pre ++ .rollback c :: post → c.reply (some i) ≠ none →
      c.checked i = false →
      Step s { s with second := pre ++ .rollback (c.check i) :: post
                      answers := s.answers ++ rollbackAnswer number c }

/-- Any interleaving of one `asyncCommit`. -/
def Run : AsyncCommit n → Prop := Relation.ReflTransGen (Step number) {}

/-! ### Decision safety -/

/-- All participants prepared. -/
def Prepared (s : AsyncCommit n) : Prop := ∀ p, s.prepare.reply p = some true

/-- All participants replied to prepare and one of them failed. -/
def PrepareFailed (s : AsyncCommit n) : Prop :=
  (∀ p, s.prepare.reply p ≠ none) ∧ ∃ p, s.prepare.reply p = some false

/-- What a request in `sent` says about the prepare phase. -/
def Justified (s : AsyncCommit n) : CommitRequest n → Prop
  | .prepareStorage => True
  | .prepare _ startTS => s.startTS = some startTS
  | .commitStorage | .commit _ => s.Prepared
  | .rollbackStorage | .rollback _ => s.PrepareFailed

/-- What a started second phase says about the prepare phase. -/
def Grounds (s : AsyncCommit n) : SecondPhase n → Prop
  | .commit _ => s.Prepared
  | .rollback _ => s.PrepareFailed

structure Inv (s : AsyncCommit n) : Prop where
  counts : s.prepare.status.Counts s.prepare.reply
  startTS : s.prepare.reply none ≠ none ↔ s.startTS ≠ none
  grounds : ∀ d ∈ s.second, s.Grounds d
  justified : ∀ r ∈ s.sent, s.Justified r

variable {number} {s s' : AsyncCommit n}

theorem counts_init :
    CommitStatus.Counts { total := 1 + n } (fun _ : Participant n => none) := by
  have h := CommitStatus.Counts.init (P := Participant n)
  rw [Fintype.card_option, Fintype.card_fin, Nat.add_comm] at h
  exact h

theorem Inv.init : Inv ({} : AsyncCommit n) where
  counts := counts_init
  startTS := by simp
  grounds := by simp
  justified := by simp

/-- The prepare phase of `s` was left alone, so what it justified it still
does. -/
theorem Justified.mono (hreply : s'.prepare.reply = s.prepare.reply)
    (hts : s'.startTS = s.startTS) {r : CommitRequest n} (h : s.Justified r) :
    s'.Justified r := by
  cases r <;> simp_all [Justified, Prepared, PrepareFailed]

theorem Grounds.mono (hreply : s'.prepare.reply = s.prepare.reply) {d : SecondPhase n}
    (h : s.Grounds d) : s'.Grounds d := by
  cases d <;> simp_all [Grounds, Prepared, PrepareFailed]

/-- A step that leaves the prepare phase alone keeps the invariant if what it
adds is justified. -/
theorem Inv.mono (h : Inv s) (hstatus : s'.prepare.status = s.prepare.status)
    (hreply : s'.prepare.reply = s.prepare.reply) (hts : s'.startTS = s.startTS)
    (hgrounds : ∀ d ∈ s'.second, s.Grounds d) (hsent : ∀ r ∈ s'.sent, s.Justified r) :
    Inv s' where
  counts := by rw [hstatus, hreply]; exact h.counts
  startTS := by rw [hreply, hts]; exact h.startTS
  grounds := fun d hd => Grounds.mono hreply (hgrounds d hd)
  justified := fun r hr => Justified.mono hreply hts (hsent r hr)

/-- While a participant has not replied nothing of the second phase is there. -/
theorem Inv.second_eq_nil (h : Inv s) {p : Participant n} (hp : s.prepare.reply p = none) :
    s.second = [] ∧ ∀ r ∈ s.sent, r = .prepareStorage ∨ ∃ i ts, r = .prepare i ts := by
  have hnot : ¬ s.Prepared := fun hc => by simp [hc p] at hp
  have hnot' : ¬ s.PrepareFailed := fun hc => hc.1 p hp
  constructor
  · rw [List.eq_nil_iff_forall_not_mem]
    intro d hd
    have := h.grounds d hd
    cases d with
    | commit c => exact hnot this
    | rollback c => exact hnot' this
  · intro r hr
    have := h.justified r hr
    cases r with
    | prepareStorage => exact Or.inl rfl
    | prepare i ts => exact Or.inr ⟨i, ts, rfl⟩
    | commitStorage => exact absurd this hnot
    | commit i => exact absurd this hnot
    | rollbackStorage => exact absurd this hnot'
    | rollback i => exact absurd this hnot'

/-- Counting a prepare reply keeps the invariant: nothing of the second phase
was there before. -/
theorem Inv.countReply (h : Inv s) {p : Participant n} (hp : s.prepare.reply p = none)
    (ok : Bool) (hprepare : s'.prepare = s.prepare.count p ok)
    (hts : s'.prepare.reply none ≠ none ↔ s'.startTS ≠ none)
    (hold : ∀ ts, s.startTS = some ts → s'.startTS = some ts)
    (hsecond : s'.second = s.second) (hsent : s'.sent = s.sent) : Inv s' := by
  -- so only prepare requests have to stay justified, and they look at the timestamp
  obtain ⟨hnil, hreq⟩ := h.second_eq_nil hp
  refine ⟨?_, hts, ?_, fun r hr => ?_⟩
  · rw [hprepare]
    exact h.counts.count hp ok
  · rw [hsecond, hnil]
    simp
  · rw [hsent] at hr
    rcases hreq r hr with rfl | ⟨i, ts, rfl⟩
    · trivial
    · exact hold ts (h.justified _ hr)

/-- A second phase starts on its grounds. -/
theorem Inv.startSecond (h : Inv s) {d : SecondPhase n} {requests : List (CommitRequest n)}
    (hd : s.Grounds d) (hrequests : ∀ r ∈ requests, s.Justified r) :
    Inv { s with second := s.second ++ [d], sent := s.sent ++ requests } := by
  refine h.mono rfl rfl rfl (fun e he => ?_) (fun r hr => ?_)
  · rcases List.mem_append.mp he with he | he
    · exact h.grounds e he
    · rw [List.mem_singleton.mp he]
      exact hd
  · rcases List.mem_append.mp hr with hr | hr
    · exact h.justified r hr
    · exact hrequests r hr

theorem Inv.checkAndCommit (h : Inv s) : Inv s.checkAndCommit := by
  unfold AsyncCommit.checkAndCommit
  split_ifs with hfull hfailed
  · -- everybody replied and one failed: rollback
    have hgr : s.PrepareFailed :=
      ⟨h.counts.full_iff.mp hfull, h.counts.failed_pos_iff.mp hfailed⟩
    apply h.startSecond (d := .rollback _) hgr
    intro r hr
    rcases List.mem_cons.mp hr with rfl | hr
    · exact hgr
    · obtain ⟨i, -, rfl⟩ := List.mem_map.mp hr
      exact hgr
  · -- everybody replied and nobody failed: commit
    have hgr : s.Prepared := by
      intro p
      rcases hp : s.prepare.reply p with _ | _ | _
      · exact absurd hp (h.counts.full_iff.mp hfull p)
      · exact absurd (h.counts.failed_pos_iff.mpr ⟨p, hp⟩) hfailed
      · rfl
    apply h.startSecond (d := .commit _) hgr
    intro r hr
    rw [List.mem_singleton.mp hr]
    exact hgr
  · exact h

/-- Replacing one second phase by a later state of it. -/
theorem Inv.setSecond (h : Inv s) {pre post : List (SecondPhase n)} {d d' : SecondPhase n}
    (hs : s.second = pre ++ d :: post) (hd : s.Grounds d → s.Grounds d') :
    ∀ e ∈ pre ++ d' :: post, s.Grounds e := by
  intro e he
  have hold : ∀ e ∈ pre ++ d :: post, s.Grounds e := hs ▸ h.grounds
  rcases List.mem_append.mp he with he | he
  · exact hold e (by simp [he])
  · rcases List.mem_cons.mp he with rfl | he
    · exact hd (hold d (by simp))
    · exact hold e (by simp [he])

theorem Step.inv (hstep : Step number s s') (h : Inv s) : Inv s' := by
  cases hstep with
  | prewrite ok hnone =>
      unfold onPrewrite
      split_ifs with hok
      · refine h.mono rfl rfl rfl h.grounds fun r hr => ?_
        rcases List.mem_append.mp hr with hr | hr
        · exact h.justified r hr
        · rw [List.mem_singleton.mp hr]
          trivial
      · exact h.mono rfl rfl rfl h.grounds h.justified
  | prepareStorage ok ts hawait =>
      -- the timestamp comes with the reply that is counted now
      have hnone : s.startTS = none := by
        by_contra hne
        exact h.startTS.mpr hne hawait.2
      refine h.countReply hawait.2 ok rfl ?_ (fun ts hts => ?_) rfl rfl
      · simp [onPrepareStorage, Collect.count]
      · rw [hnone] at hts
        cases hts
  | @sendPrepare i ts hts hasked =>
      refine h.mono rfl rfl rfl h.grounds fun r hr => ?_
      rcases List.mem_append.mp hr with hr | hr
      · exact h.justified r hr
      · rw [List.mem_singleton.mp hr]
        exact hts
  | countPrepare i ok hawait =>
      refine h.countReply hawait.2 ok rfl ?_ (fun ts hts => hts) rfl rfl
      have hne : (none : Participant n) ≠ some i := by simp
      simpa [AsyncCommit.countPrepare, Collect.count, Function.update_of_ne hne] using h.startTS
  -- marking the handler as run changes nothing the invariant looks at
  | checkPrepare i hreply hchecked =>
      exact Inv.checkAndCommit (h.mono rfl rfl rfl h.grounds h.justified)
  | commitStorage ok hs hawait =>
      exact h.mono rfl rfl rfl (h.setSecond hs id) h.justified
  | sendCommit i hs hreply hasked =>
      refine h.mono rfl rfl rfl (h.setSecond hs id) fun r hr => ?_
      rcases List.mem_append.mp hr with hr | hr
      · exact h.justified r hr
      · -- the request belongs to a commit phase, which has its grounds
        rw [List.mem_singleton.mp hr]
        exact h.grounds (.commit _) (by rw [hs]; exact List.mem_append_cons_self)
  | countCommit i ok hs hawait =>
      exact h.mono rfl rfl rfl (h.setSecond hs id) h.justified
  | checkCommit i hs hreply hchecked =>
      exact h.mono rfl rfl rfl (h.setSecond hs id) h.justified
  | rollbackStorage ok hs hawait =>
      exact h.mono rfl rfl rfl (h.setSecond hs id) h.justified
  | countRollback i ok hs hawait =>
      exact h.mono rfl rfl rfl (h.setSecond hs id) h.justified
  | checkRollback i hs hreply hchecked =>
      exact h.mono rfl rfl rfl (h.setSecond hs id) h.justified

theorem Inv.steps (h : Inv s) (hsteps : Relation.ReflTransGen (Step number) s s') :
    Inv s' := by
  induction hsteps with
  | refl => exact h
  | tail _ hstep ih => exact hstep.inv ih

theorem Run.inv (hrun : Run number s) : Inv s := Inv.init.steps hrun

/-- **Decision safety.**  In every interleaving, a commit request is sent only
after everybody prepared, a rollback request only after everybody replied to
prepare and somebody failed, never both, and every executor's prepare carries
the start timestamp of the storage. -/
theorem asyncCommit_decision (hrun : Run number s) :
    (.commitStorage ∈ s.sent ∨ (∃ i, .commit i ∈ s.sent) →
      ∀ p, s.prepare.reply p = some true) ∧
    (.rollbackStorage ∈ s.sent ∨ (∃ i, .rollback i ∈ s.sent) →
      (∀ p, s.prepare.reply p ≠ none) ∧ ∃ p, s.prepare.reply p = some false) ∧
    ¬ ((.commitStorage ∈ s.sent ∨ ∃ i, .commit i ∈ s.sent) ∧
      (.rollbackStorage ∈ s.sent ∨ ∃ i, .rollback i ∈ s.sent)) ∧
    ∀ i ts, .prepare i ts ∈ s.sent → s.startTS = some ts := by
  have h := hrun.inv
  have hcommit : .commitStorage ∈ s.sent ∨ (∃ i, .commit i ∈ s.sent) → s.Prepared := by
    rintro (hr | ⟨i, hr⟩)
    · exact h.justified _ hr
    · exact h.justified _ hr
  have hrollback : .rollbackStorage ∈ s.sent ∨ (∃ i, .rollback i ∈ s.sent) →
      s.PrepareFailed := by
    rintro (hr | ⟨i, hr⟩)
    · exact h.justified _ hr
    · exact h.justified _ hr
  refine ⟨hcommit, hrollback, ?_, fun i ts hr => h.justified _ hr⟩
  -- nobody can have prepared and failed to
  rintro ⟨hc, hr⟩
  obtain ⟨-, p, hp⟩ := hrollback hr
  rw [hcommit hc p] at hp
  cases hp

/-- One executor whose reply to prepare is `ok`, up to the decision. -/
def decided (ok : Bool) : AsyncCommit 1 :=
  (((({} : AsyncCommit 1).onPrewrite true).onPrepareStorage true 5).sendPrepare (Fin.last 0) 5
    |>.countPrepare (Fin.last 0) ok).checkPrepare (Fin.last 0)

/-- With all prepares good the storage is asked to commit. -/
theorem asyncCommit_decision_decided :
    .commitStorage ∈ (decided true).sent ∧
      ∀ p, (decided true).prepare.reply p = some true := by
  have hrun : Run 7 (decided true) := by
    refine .head (.prewrite true rfl) (.head (.prepareStorage true 5 ⟨rfl, rfl⟩)
      (.head (.sendPrepare 0 rfl rfl) (.head (.countPrepare 0 true ⟨rfl, rfl⟩)
        (.single (.checkPrepare 0 ?_ rfl)))))
    exact Option.some_ne_none true
  have hmem : .commitStorage ∈ (decided true).sent := by decide
  exact ⟨hmem, (asyncCommit_decision hrun).1 (Or.inl hmem)⟩

end AsyncCommit

end BcosScheduler
