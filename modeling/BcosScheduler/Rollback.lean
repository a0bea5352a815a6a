/-
BcosScheduler/Rollback.lean

`batchBlockRollback` for every order of the replies.

The storage and the executors are asked in parallel and every reply is counted,
but only the handlers of the executors run `checkAndCommit`; the handler of the
storage ends after its count.  So the callback is called by the last handler, if
that is one of an executor, and by nobody if the storage replies last
(`rollback_completes_iff`).  Here a handler runs in one piece; its two steps among
those of other handlers are in `AsyncCommit.Step`, which makes the same moves
(`Rollback.steps_onReply`).
-/
import BcosScheduler.AsyncCommit

namespace BcosScheduler

variable {n : Nat} (number : BlockNumber)

/-- One `batchBlockRollback`: its counters and the calls of its callback, with
their error. -/
structure Rollback (n : Nat) where
  collect : Collect n
  calls : List (Option Error)

namespace Rollback

/-- Everybody is asked. -/
def start : Rollback n where
  collect := { asked := fun _ => true }
  calls := []

/-- `status->checkAndCommit`: the calls of the callback it makes. -/
def checkAndCommit (status : CommitStatus) : List (Option Error) :=
  if status.full then
    if 0 < status.failed then
      [some (SchedulerError.RollbackError.error ("Rollback block:" ++ toString number ++
        " with errors! " ++ toString status.failed))]
    else [none]
  else []

/-- The reply handler of the storage (`none`) or of an executor. -/
def onReply (s : Rollback n) (p : Participant n) (ok : Bool) : Rollback n :=
  match p with
  | none => { s with collect := s.collect.count none ok }
  | some i =>
      { collect := (s.collect.count (some i) ok).check i
        calls := s.calls ++ checkAndCommit number (s.collect.count (some i) ok).status }

/-- The handlers run in the order of the replies. -/
def run (ok : Participant n → Bool) (s : Rollback n) (order : List (Participant n)) : Rollback n :=
  order.foldl (fun s p => s.onReply number p (ok p)) s

end Rollback

/-- An order in which the storage and all executors reply, once each. -/
structure ReplyOrder (n : Nat) where
  replies : List (Participant n)
  nodup : replies.Nodup
  complete : ∀ p, p ∈ replies

namespace Rollback

variable {number} {ok : Participant n → Bool} {s : Rollback n} {order : List (Participant n)}
  {p : Participant n}

theorem run_append_singleton :
    run number ok s (order ++ [p]) = (run number ok s order).onReply number p (ok p) := by
  simp [run]

theorem notMem_of_nodup (h : (order ++ [p]).Nodup) : order.Nodup ∧ p ∉ order := by
  obtain ⟨hnodup, -, hnot⟩ := List.nodup_append.mp h
  exact ⟨hnodup, fun hmem => hnot p hmem p (List.mem_singleton_self p) rfl⟩

/-! ### The counters -/

theorem status_onReply (b : Bool) :
    (s.onReply number p b).collect.status = s.collect.status.count b := by
  cases p <;> rfl

theorem reply_onReply (b : Bool) :
    (s.onReply number p b).collect.reply = Function.update s.collect.reply p (some b) := by
  cases p <;> rfl

theorem reply_run (hp : p ∉ order) (hnone : s.collect.reply p = none) :
    (run number ok s order).collect.reply p = none := by
  induction order using List.reverseRecOn with
  | nil => exact hnone
  | append_singleton order q ih =>
      rw [List.mem_append, List.mem_singleton, not_or] at hp
      rw [run_append_singleton, reply_onReply, Function.update_of_ne hp.2]
      exact ih hp.1

theorem reply_run_of_mem (hp : p ∈ order) :
    (run number ok s order).collect.reply p = some (ok p) := by
  induction order using List.reverseRecOn with
  | nil => cases hp
  | append_singleton order q ih =>
      rw [run_append_singleton, reply_onReply]
      by_cases hpq : p = q
      · rw [hpq, Function.update_self]
      · rw [Function.update_of_ne hpq]
        apply ih
        rcases List.mem_append.mp hp with hp | hp
        · exact hp
        · exact absurd (List.mem_singleton.mp hp) hpq

/-- The counters count the replies so far. -/
theorem counts_run (hnodup : order.Nodup) :
    (run number ok start order).collect.status.Counts (run number ok start order).collect.reply := by
  induction order using List.reverseRecOn with
  | nil => exact AsyncCommit.counts_init
  | append_singleton order p ih =>
      obtain ⟨hnodup, hp⟩ := notMem_of_nodup hnodup
      rw [run_append_singleton, status_onReply, reply_onReply]
      exact (ih hnodup).count (reply_run hp rfl) (ok p)

theorem full_run_iff (hnodup : order.Nodup) :
    (run number ok start order).collect.status.full = true ↔ ∀ p, p ∈ order := by
  rw [(counts_run hnodup).full_iff]
  apply forall_congr'
  intro p
  constructor
  · intro hreply
    by_contra hp
    exact hreply (reply_run hp rfl)
  · intro hp
    rw [reply_run_of_mem hp]
    exact Option.some_ne_none _

/-- Before everybody has replied the callback is not called. -/
theorem calls_run_eq_nil (hnodup : order.Nodup) (hmissing : ∃ p, p ∉ order) :
    (run number ok start order).calls = [] := by
  induction order using List.reverseRecOn with
  | nil => rfl
  | append_singleton order p ih =>
      obtain ⟨q, hq⟩ := hmissing
      have hnil : (run number ok start order).calls = [] := by
        apply ih (notMem_of_nodup hnodup).1
        exact ⟨q, fun hmem => hq (List.mem_append_left _ hmem)⟩
      have hfull : ¬ (run number ok start (order ++ [p])).collect.status.full = true := by
        rw [full_run_iff hnodup]
        exact fun hall => hq (hall q)
      rw [run_append_singleton, status_onReply] at hfull
      rw [run_append_singleton]
      cases p with
      | none => exact hnil
      | some i =>
          show (run number ok start order).calls ++ checkAndCommit number _ = []
          rw [hnil, checkAndCommit, List.nil_append]
          exact if_neg hfull

/-- What the last handler does: nothing if it is the storage's, else it calls the
callback. -/
theorem calls_run_last (hnodup : (order ++ [p]).Nodup) (hall : ∀ q, q ∈ order ++ [p]) :
    (run number ok start (order ++ [p])).calls = if p = none then [] else
      checkAndCommit number (run number ok start (order ++ [p])).collect.status := by
  obtain ⟨hnodup', hp⟩ := notMem_of_nodup hnodup
  have hnil : (run number ok start order).calls = [] := calls_run_eq_nil hnodup' ⟨p, hp⟩
  rw [run_append_singleton]
  cases p with
  | none => exact hnil
  | some i =>
      show (run number ok start order).calls ++ checkAndCommit number _ = _
      rw [hnil, if_neg (Option.some_ne_none i)]
      rfl

theorem checkAndCommit_full {status : CommitStatus} (hfull : status.full = true) :
    ∃ error, checkAndCommit number status = [error] ∧ (error.isSome = true ↔ 0 < status.failed) := by
  rw [checkAndCommit, if_pos hfull]
  split_ifs with hfailed
  · exact ⟨_, rfl, by simpa using hfailed⟩
  · exact ⟨none, rfl, by simpa using hfailed⟩

/-! ### The callback -/

/-- The callback is called after the last reply and not before, once, with an error
iff somebody failed. -/
structure Completes (number : BlockNumber) (ok : Participant n → Bool) (order : ReplyOrder n) :
    Prop where
  early : ∀ k < order.replies.length, (run number ok start (order.replies.take k)).calls = []
  once : ∃ error, (run number ok start order.replies).calls = [error] ∧
    (error.isSome = true ↔ ∃ p, ok p = false)

theorem early_of_order (order : ReplyOrder n) {k : Nat} (hk : k < order.replies.length) :
    (run number ok start (order.replies.take k)).calls = [] := by
  apply calls_run_eq_nil
  · exact order.nodup.sublist (List.take_sublist _ _)
  · refine ⟨order.replies[k], fun hmem => ?_⟩
    obtain ⟨i, hi, heq⟩ := List.mem_iff_getElem.mp hmem
    rw [List.getElem_take] at heq
    have hik := (order.nodup.getElem_inj_iff).mp heq
    rw [List.length_take] at hi
    omega

/-- The callback is called exactly once, with an error iff somebody failed, exactly if
the storage is not the last to reply. -/
theorem rollback_completes_iff (number : BlockNumber) (ok : Participant n → Bool)
    (order : ReplyOrder n) :
    Completes number ok order ↔ order.replies.getLast? ≠ some none := by
  have hne : order.replies ≠ [] := List.ne_nil_of_mem (order.complete none)
  obtain ⟨rest, p, hsplit⟩ : ∃ rest p, order.replies = rest ++ [p] :=
    (List.eq_nil_or_concat' order.replies).resolve_left hne
  have hnodup := order.nodup
  have hall := order.complete
  rw [hsplit] at hnodup hall
  have hlast : (run number ok start (rest ++ [p])).calls = if p = none then [] else
      checkAndCommit number (run number ok start (rest ++ [p])).collect.status :=
    calls_run_last hnodup hall
  have hgetLast : order.replies.getLast? = some p := by
    rw [hsplit, List.getLast?_append_of_ne_nil _ (by simp)]
    rfl
  rw [← hsplit] at hlast
  rw [hgetLast, ne_eq, Option.some_inj]
  constructor
  · rintro ⟨-, error, hcalls, -⟩ rfl
    rw [hlast, if_pos rfl] at hcalls
    cases hcalls
  · intro hstorage
    refine ⟨fun k hk => early_of_order order hk, ?_⟩
    rw [if_neg hstorage] at hlast
    have hfull : (run number ok start order.replies).collect.status.full = true :=
      (full_run_iff order.nodup).mpr order.complete
    obtain ⟨error, hcalls, herror⟩ : ∃ error, checkAndCommit number _ = [error] ∧ _ :=
      checkAndCommit_full hfull
    refine ⟨error, hlast.trans hcalls, herror.trans ?_⟩
    rw [(counts_run order.nodup).failed_pos_iff]
    apply exists_congr
    intro q
    rw [reply_run_of_mem (order.complete q), Option.some_inj]

/-- One executor, all rollbacks good; the storage replies last. -/
def storageLast : ReplyOrder 1 where
  replies := [some (Fin.last 0), none]
  nodup := List.nodup_cons.mpr ⟨by simp, List.nodup_singleton _⟩
  complete := by
    rintro (_ | i)
    · exact List.mem_cons_of_mem _ (List.mem_singleton_self _)
    · obtain rfl : i = Fin.last 0 := Fin.ext (by omega)
      exact List.mem_cons_self

/-- Nobody calls the callback. -/
theorem rollback_storage_last :
    (run 7 (fun _ => true) start storageLast.replies).calls = [] ∧
      ¬ Completes 7 (fun _ => true) storageLast := by
  have hnil : (run 7 (fun _ => true) start storageLast.replies).calls = [] := rfl
  refine ⟨hnil, fun h => ?_⟩
  obtain ⟨error, hcalls, -⟩ := h.once
  rw [hnil] at hcalls
  cases hcalls

/-! ### Among the other handlers -/

/-- What the callback of a rollback in `asyncCommit` passes on: only errors. -/
theorem rollbackAnswer_eq (c : Collect n) :
    AsyncCommit.rollbackAnswer number c
      = (checkAndCommit number c.status).filter Option.isSome := by
  unfold AsyncCommit.rollbackAnswer checkAndCommit
  by_cases hfull : c.status.full = true
  · by_cases hfailed : 0 < c.status.failed
    · simp [hfull, hfailed]
    · simp [hfull, hfailed]
  · simp [hfull]

/-- The state of an `asyncCommit` with this rollback among its second phases. -/
def within (a : AsyncCommit n) (pre post : List (SecondPhase n)) (s : Rollback n) : AsyncCommit n :=
  { a with second := pre ++ .rollback s.collect :: post
           answers := a.answers ++ s.calls.filter Option.isSome }

theorem batchBlockRollback_eq (a : AsyncCommit n) :
    a.batchBlockRollback = within
      { a with sent := a.sent ++ .rollbackStorage :: (List.finRange n).map .rollback }
      a.second [] start := by
  simp [AsyncCommit.batchBlockRollback, within, start]

variable {a : AsyncCommit n} {pre post : List (SecondPhase n)}

/-- A handler that runs in one piece is a step, or two, of `asyncCommit`. -/
theorem steps_onReply (b : Bool) (hawaits : s.collect.Awaits p)
    (hchecked : ∀ i, p = some i → s.collect.checked i = false) :
    Relation.ReflTransGen (AsyncCommit.Step number) (within a pre post s)
      (within a pre post (s.onReply number p b)) := by
  cases p with
  | none => exact .single (.rollbackStorage b rfl hawaits)
  | some i =>
      have hcount : AsyncCommit.Step number (within a pre post s)
          { within a pre post s with
            second := pre ++ .rollback (s.collect.count (some i) b) :: post } :=
        .countRollback i b rfl hawaits
      refine .tail (.single hcount) ?_
      have hreply : (s.collect.count (some i) b).reply (some i) ≠ none := by
        simp [Collect.count]
      have hcheck : AsyncCommit.Step number
          { within a pre post s with
            second := pre ++ .rollback (s.collect.count (some i) b) :: post }
          { within a pre post s with
            second := pre ++ .rollback ((s.collect.count (some i) b).check i) :: post
            answers := (within a pre post s).answers ++
              AsyncCommit.rollbackAnswer number (s.collect.count (some i) b) } :=
        .checkRollback i rfl hreply (hchecked i rfl)
      rw [rollbackAnswer_eq] at hcheck
      simpa only [within, onReply, List.filter_append, List.append_assoc] using hcheck

theorem asked_run (hasked : ∀ p, s.collect.asked p = true) (p : Participant n) :
    (run number ok s order).collect.asked p = true := by
  induction order using List.reverseRecOn with
  | nil => exact hasked p
  | append_singleton order q ih =>
      rw [run_append_singleton]
      cases q with
      | none => exact ih
      | some i => exact ih

theorem checked_run {i : Fin n} (hi : some i ∉ order) (hnot : s.collect.checked i = false) :
    (run number ok s order).collect.checked i = false := by
  induction order using List.reverseRecOn with
  | nil => exact hnot
  | append_singleton order q ih =>
      rw [List.mem_append, List.mem_singleton, not_or] at hi
      rw [run_append_singleton]
      cases q with
      | none => exact ih hi.1
      | some j =>
          have hij : i ≠ j := fun heq => hi.2 (congrArg some heq)
          show Function.update (run number ok s order).collect.checked j true i = false
          rw [Function.update_of_ne hij]
          exact ih hi.1

/-- A rollback whose handlers run in one piece each is part of a run of
`asyncCommit`. -/
theorem steps_run (hnodup : order.Nodup) :
    Relation.ReflTransGen (AsyncCommit.Step number) (within a pre post start)
      (within a pre post (run number ok start order)) := by
  induction order using List.reverseRecOn with
  | nil => exact .refl
  | append_singleton order p ih =>
      obtain ⟨hnodup, hp⟩ := notMem_of_nodup hnodup
      refine (ih hnodup).trans ?_
      rw [run_append_singleton]
      apply steps_onReply
      · exact ⟨asked_run (fun _ => rfl) p, reply_run hp rfl⟩
      · rintro i rfl
        exact checked_run hp rfl

end Rollback

end BcosScheduler
