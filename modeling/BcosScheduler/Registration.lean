/-
BcosScheduler/Registration.lean

Executors that register while blocks are executed and committed.

The set of executors is read anew in every phase of a block: `batchNextBlock`
reads its size and then asks everybody, `dispatchExecutor` takes an executor of
the moment, `asyncCommit` and `batchBlockCommit` read the size and ask
everybody again.  No phase keeps the set for the next one, and
`registerExecutor` may be called at any time.

Here several block executives, each standing for its block, share one
`ExecutorManager`, and a run leaves a trace of registrations, readings of the
size, requests and answers.  An executor that is there when `batchNextBlock`
reads the size works on the block only after its `nextBlockHeader` was answered,
and likewise for `prepare` and `commit`, if no registration falls between the
reading and the requests (`executors_told`).  An executor that registers later
is not asked first (`late_executor_not_told`).

Of the execution of a block only the requests are kept; it ends in one step
(`finish`).  `getHash`, `rollback` and `call` are left out.
-/
import BcosScheduler.CommitStatus
import BcosScheduler.ExecutorManager
import Mathlib.Data.List.Perm.Subperm
import Mathlib.Data.List.TakeWhile

namespace BcosScheduler

namespace Registration

/-- What an executor is asked for.  `commitBlock` may be called again for a
block that was not committed; `attempt` tells the calls apart. -/
inductive Request
  | nextBlockHeader
  | executeTransaction
  | dagExecuteTransactions
  | prepare (attempt : Nat)
  | commit (attempt : Nat)
  deriving DecidableEq, Repr

/-- Requests that go to the executor `dispatchExecutor` returns. -/
def Request.dispatched : Request → Bool
  | .executeTransaction | .dagExecuteTransactions => true
  | _ => false

/-- The storage takes part in the two phases of the commit: `1 + size()`. -/
def Request.self : Request → Nat
  | .prepare _ | .commit _ => 1
  | _ => 0

/-- What happens, for which block executive and which executor. -/
inductive Event
  | registered (executor : Nat)
  /-- `total` was set from the size of the executor set. -/
  | begun (request : Request) (executive : Nat)
  | request (request : Request) (executive executor : Nat)
  | answer (request : Request) (executive executor : Nat) (ok : Bool)
  deriving DecidableEq, Repr

/-- One collection of answers: its counters, whether the storage has yet to
answer, and the executors by pointer: asked, answered, past `checkAndCommit`. -/
structure Round where
  request : Request
  executive : Nat
  status : CommitStatus
  waiting : Bool
  asked : List Nat := []
  answered : List Nat := []
  checked : List Nat := []
  deriving DecidableEq, Repr

/-- The shared manager, the collections so far, the executives past
`batchNextBlock` and those with a result, the calls of `dispatchExecutor`
between lookup and mutex, and the trace. -/
structure State where
  manager : ExecutorManager := {}
  rounds : List Round := []
  executing : List Nat := []
  executed : List Nat := []
  missed : List (Request × Nat × String) := []
  trace : List Event := []
  deriving DecidableEq, Repr

namespace State

/-! ### Steps -/

def emit (s : State) (event : Event) : State := { s with trace := s.trace ++ [event] }

/-- A collection begins by reading the size of the executor set. -/
def openRound (s : State) (request : Request) (executive : Nat) : State :=
  { s with
    rounds := s.rounds ++ [{ request, executive, waiting := request.self == 1
                             status := { total := request.self + s.manager.executors.length } }]
    trace := s.trace ++ [.begun request executive] }

def setRound (s : State) (i : Nat) (r : Round) : State := { s with rounds := s.rounds.set i r }

/-- `checkAndCommit` of a collection with all answers and no error. -/
def proceed (s : State) (r : Round) : State :=
  match r.request with
  | .nextBlockHeader => { s with executing := r.executive :: s.executing }
  | .prepare attempt => s.openRound (.commit attempt) r.executive
  | _ => s

def checkAndCommit (s : State) (r : Round) : State :=
  if r.status.full = true ∧ r.status.failed = 0 then s.proceed r else s

/-- The end of `dispatchExecutor`: nothing is sent if it threw. -/
def send (s : State) (request : Request) (executive : Nat) : ExecutorManager.Outcome → State
  | .returned (some executor) => s.emit (.request request executive executor)
  | _ => s

/-- One step of a registration or of a block executive. -/
inductive Step : State → State → Prop
  /-- A name that is taken changes nothing. -/
  | registerExecutor {s : State} (name : String) (executor : Nat) :
      name ∉ s.manager.name2Executors.map Prod.fst →
      Step s ({ s with manager := (s.manager.addExecutor name executor).1 }.emit
        (.registered executor))
  /-- `executeBlock` reaches `batchNextBlock`. -/
  | batchNextBlock {s : State} (executive : Nat) :
      .begun .nextBlockHeader executive ∉ s.trace →
      Step s (s.openRound .nextBlockHeader executive)
  /-- The loop over the executors, after the storage has answered. -/
  | ask {s : State} {r : Round} (i p : Nat) : s.rounds[i]? = some r → r.waiting = false →
      p ∈ s.manager.executors → p ∉ r.asked →
      Step s ((s.setRound i { r with asked := p :: r.asked }).emit
        (.request r.request r.executive (s.manager.info p).executor))
  | storage {s : State} {r : Round} (i : Nat) (ok : Bool) : s.rounds[i]? = some r →
      r.waiting = true →
      Step s (s.setRound i { r with waiting := false, status := r.status.count ok })
  | answer {s : State} {r : Round} (i p : Nat) (ok : Bool) : s.rounds[i]? = some r →
      p ∈ r.asked → p ∉ r.answered →
      Step s ((s.setRound i { r with answered := p :: r.answered
                                     status := r.status.count ok }).emit
        (.answer r.request r.executive (s.manager.info p).executor ok))
  | check {s : State} {r : Round} (i p : Nat) : s.rounds[i]? = some r → p ∈ r.answered →
      p ∉ r.checked →
      Step s ((s.setRound i { r with checked := p :: r.checked }).checkAndCommit r)
  /-- `dispatchExecutor` knows the contract. -/
  | found {s : State} {p : Nat} (request : Request) (executive : Nat) (contract : String) :
      executive ∈ s.executing → request.dispatched = true →
      s.manager.findContract contract = some p →
      Step s (s.emit (.request request executive (s.manager.info p).executor))
  /-- `dispatchExecutor` does not; a call sent back by `try_to_lock` is a new one. -/
  | missed {s : State} (request : Request) (executive : Nat) (contract : String) :
      executive ∈ s.executing → request.dispatched = true → s.manager.name2Executors ≠ [] →
      s.manager.findContract contract = none →
      Step s { s with missed := (request, executive, contract) :: s.missed }
  | assign {s : State} (request : Request) (executive : Nat) (contract : String) :
      (request, executive, contract) ∈ s.missed →
      Step s ({ s with manager := (s.manager.assign contract).1
                       missed := s.missed.erase (request, executive, contract) }.send
        request executive (s.manager.assign contract).2)
  /-- `asyncExecute` hands out the result. -/
  | finish {s : State} (executive : Nat) : executive ∈ s.executing →
      Step s { s with executed := executive :: s.executed }
  /-- `commitBlock` reaches the prepare phase of `asyncCommit`. -/
  | commitBlock {s : State} (executive attempt : Nat) : executive ∈ s.executed →
      .begun (.prepare attempt) executive ∉ s.trace →
      Step s (s.openRound (.prepare attempt) executive)

/-- Any interleaving, from a scheduler without executors. -/
inductive Reachable : State → Prop
  | initial : Reachable {}
  | step {s s' : State} : Reachable s → Step s s' → Reachable s'

end State

/-! ### Who was registered when -/

def Event.registration : Event → Option Nat
  | .registered executor => some executor
  | _ => none

/-- The executors registered along a trace, in order. -/
def roster (trace : List Event) : List Nat := trace.filterMap Event.registration

/-- Those registered when the collection read the size of the executor set. -/
def rosterAt (request : Request) (executive : Nat) (trace : List Event) : List Nat :=
  roster (trace.takeWhile fun event => event ≠ .begun request executive)

/-- No request of the collection went out after a registration that followed
the reading. -/
def Undisturbed (request : Request) (executive : Nat) (trace : List Event) : Prop :=
  ∀ before executor after, trace = before ++ .request request executive executor :: after →
    roster before = rosterAt request executive before

variable {trace events : List Event} {event : Event} {request : Request} {e p : Nat}

theorem roster_append : roster (trace ++ events) = roster trace ++ roster events :=
  List.filterMap_append

theorem roster_concat (h : event.registration = none) :
    roster (trace ++ [event]) = roster trace := by
  rw [roster_append]
  simp [roster, h]

theorem getElem?_roster_append {h : Nat} (hp : (roster trace)[p]? = some h) :
    (roster (trace ++ events))[p]? = some h := by
  obtain ⟨hlt, -⟩ := List.getElem?_eq_some_iff.mp hp
  rw [roster_append, List.getElem?_append_left hlt, hp]

theorem rosterAt_isPrefix : rosterAt request e trace <+: roster trace :=
  (List.takeWhile_prefix _).filterMap _

theorem all_ne_begun (h : .begun request e ∉ trace) :
    ∀ event ∈ trace, decide (event ≠ .begun request e) = true := by
  intro event hevent
  apply decide_eq_true
  rintro rfl
  exact h hevent

/-- Before the reading, everybody is in time. -/
theorem rosterAt_of_not_mem (h : .begun request e ∉ trace) :
    rosterAt request e trace = roster trace := by
  rw [rosterAt, List.takeWhile_eq_self_iff.mpr (all_ne_begun h)]

/-- The reading itself. -/
theorem rosterAt_begun (h : .begun request e ∉ trace) :
    rosterAt request e (trace ++ .begun request e :: events) = roster trace := by
  rw [rosterAt, List.takeWhile_append_of_pos (all_ne_begun h), List.takeWhile_cons_of_neg (by simp), List.append_nil]

/-- After the reading, the roster of the collection is settled. -/
theorem rosterAt_append (h : .begun request e ∈ trace) :
    rosterAt request e (trace ++ events) = rosterAt request e trace := by
  obtain ⟨before, after, rfl, hbefore⟩ := List.eq_append_cons_of_mem h
  rw [List.append_assoc, List.cons_append, rosterAt_begun hbefore, rosterAt_begun hbefore]

theorem Undisturbed.of_append (h : Undisturbed request e (trace ++ events)) :
    Undisturbed request e trace := by
  intro before executor after heq
  apply h before executor (after ++ events)
  rw [heq, List.append_assoc, List.cons_append]

theorem Undisturbed.of_concat {executor : Nat}
    (h : Undisturbed request e (trace ++ [.request request e executor])) :
    roster trace = rosterAt request e trace := h trace executor [] rfl

/-- Nobody registered since the reading. -/
theorem undisturbed_of_roster_eq (h : roster trace = rosterAt request e trace) :
    Undisturbed request e trace := by
  rintro before executor after rfl
  by_cases hbegun : .begun request e ∈ before
  · rw [rosterAt_append hbegun, roster_append] at h
    refine (rosterAt_isPrefix.eq_of_length_le ?_).symm
    rw [← h, List.length_append]
    exact Nat.le_add_right _ _
  · exact (rosterAt_of_not_mem hbegun).symm

/-! ### Acknowledgements -/

/-- The collection has read the size, and if it was undisturbed, everybody
counted by that reading has answered without error. -/
def Acknowledged (request : Request) (e : Nat) (trace : List Event) : Prop :=
  .begun request e ∈ trace ∧ (Undisturbed request e trace →
    ∀ executor ∈ rosterAt request e trace, .answer request e executor true ∈ trace)

theorem Acknowledged.append (h : Acknowledged request e trace) (events : List Event) :
    Acknowledged request e (trace ++ events) := by
  refine ⟨List.mem_append_left _ h.1, fun hcalm executor hexecutor => ?_⟩
  rw [rosterAt_append h.1] at hexecutor
  exact List.mem_append_left _ (h.2 hcalm.of_append executor hexecutor)

/-- The counters of a collection against the trace. -/
structure Round.Sound (trace : List Event) (r : Round) : Prop where
  begun : .begun r.request r.executive ∈ trace
  total : r.status.total = r.request.self + (rosterAt r.request r.executive trace).length
  asked : Undisturbed r.request r.executive trace →
    ∀ p ∈ r.asked, p < (rosterAt r.request r.executive trace).length
  answered : ∀ p ∈ r.answered, p ∈ r.asked
  nodup : r.answered.Nodup
  counted : r.status.success + r.status.failed + (if r.waiting then 1 else 0)
    = r.answered.length + r.request.self
  positive : r.status.failed = 0 → ∀ p ∈ r.answered, ∃ executor,
    (roster trace)[p]? = some executor ∧
      .answer r.request r.executive executor true ∈ trace

variable {r : Round}

theorem Round.Sound.append (h : r.Sound trace) (events : List Event) :
    r.Sound (trace ++ events) where
  begun := List.mem_append_left _ h.begun
  total := by rw [rosterAt_append h.begun, h.total]
  asked := by
    intro hcalm
    rw [rosterAt_append h.begun]
    exact h.asked hcalm.of_append
  answered := h.answered
  nodup := h.nodup
  counted := h.counted
  positive := by
    intro hfailed p hp
    obtain ⟨executor, hexecutor, hanswer⟩ := h.positive hfailed p hp
    exact ⟨executor, getElem?_roster_append hexecutor, List.mem_append_left _ hanswer⟩

/-- `checkAndCommit` goes on without error: as many different executors have
answered as were counted by the reading, so these are they. -/
theorem Round.Sound.acknowledged (h : r.Sound trace) (hfull : r.status.full = true)
    (hfailed : r.status.failed = 0) : Acknowledged r.request r.executive trace := by
  refine ⟨h.begun, fun hcalm executor hexecutor => ?_⟩
  set n := (rosterAt r.request r.executive trace).length with hn
  have hlen : n ≤ r.answered.length := by
    have hle := of_decide_eq_true hfull
    have hcounted := h.counted
    rw [h.total] at hle
    omega
  have hsub : r.answered ⊆ List.range n :=
    fun p hp => List.mem_range.mpr (h.asked hcalm p (h.answered p hp))
  have hperm : r.answered.Perm (List.range n) := by
    apply (List.subperm_of_subset h.nodup hsub).perm_of_length_le
    rw [List.length_range]
    exact hlen
  obtain ⟨p, hp, hget⟩ := List.getElem_of_mem hexecutor
  have hanswered : p ∈ r.answered := hperm.mem_iff.mpr (List.mem_range.mpr hp)
  obtain ⟨executor', hroster, hanswer⟩ := h.positive hfailed p hanswered
  have hsame : (roster trace)[p]? = some executor := by
    rw [← hget, rosterAt_isPrefix.getElem hp]
    exact List.getElem?_eq_getElem _
  obtain rfl : executor' = executor := Option.some.inj (hroster.symm.trans hsame)
  exact hanswer

/-! ### One collection -/

theorem Request.self_eq (request : Request) :
    (if request.self == 1 then 1 else 0) = request.self := by
  cases request <;> rfl

theorem Round.Sound.opened (hfresh : .begun request e ∉ trace) :
    Round.Sound (trace ++ [.begun request e])
      { request, executive := e, waiting := request.self == 1
        status := { total := request.self + (roster trace).length } } where
  begun := List.mem_append_right _ (List.mem_singleton.mpr rfl)
  total := by rw [rosterAt_begun hfresh]
  asked := by simp
  answered := by simp
  nodup := List.nodup_nil
  counted := by
    show 0 + 0 + (if request.self == 1 then 1 else 0) = 0 + request.self
    rw [request.self_eq]
  positive := by simp

/-- A request while nobody has registered since the reading goes to somebody
the reading counted. -/
theorem Round.Sound.ask (h : r.Sound trace) (hp : p < (roster trace).length) (executor : Nat) :
    Round.Sound (trace ++ [.request r.request r.executive executor])
      { r with asked := p :: r.asked } where
  begun := (h.append _).begun
  total := (h.append _).total
  asked := by
    intro hcalm q hq
    rcases List.mem_cons.mp hq with rfl | hq
    · rw [rosterAt_append h.begun, ← hcalm.of_concat]
      exact hp
    · exact (h.append _).asked hcalm q hq
  answered := fun q hq => List.mem_cons_of_mem p (h.answered q hq)
  nodup := h.nodup
  counted := h.counted
  positive := (h.append _).positive

theorem Round.Sound.storage (h : r.Sound trace) (hwaiting : r.waiting = true) (ok : Bool) :
    Round.Sound trace { r with waiting := false, status := r.status.count ok } where
  begun := h.begun
  total := by
    rw [CommitStatus.count_total]
    exact h.total
  asked := h.asked
  answered := h.answered
  nodup := h.nodup
  counted := by
    have hcounted := h.counted
    rw [hwaiting] at hcounted
    show (r.status.count ok).success + (r.status.count ok).failed + 0 = _
    rw [CommitStatus.count_sum, ← hcounted]
    rfl
  positive := fun hfailed => h.positive (CommitStatus.failed_of_count hfailed).1

theorem Round.Sound.answer (h : r.Sound trace) {executor : Nat}
    (hp : (roster trace)[p]? = some executor) (hasked : p ∈ r.asked) (hnew : p ∉ r.answered)
    (ok : Bool) :
    Round.Sound (trace ++ [.answer r.request r.executive executor ok])
      { r with answered := p :: r.answered, status := r.status.count ok } where
  begun := (h.append _).begun
  total := by
    rw [CommitStatus.count_total]
    exact (h.append _).total
  asked := (h.append _).asked
  answered := by
    intro q hq
    rcases List.mem_cons.mp hq with rfl | hq
    · exact hasked
    · exact h.answered q hq
  nodup := List.nodup_cons.mpr ⟨hnew, h.nodup⟩
  counted := by
    have hcounted := h.counted
    show (r.status.count ok).success + (r.status.count ok).failed + (if r.waiting then 1 else 0)
      = (p :: r.answered).length + r.request.self
    rw [CommitStatus.count_sum, List.length_cons]
    omega
  positive := by
    intro hfailed q hq
    obtain ⟨hfailed, rfl⟩ := CommitStatus.failed_of_count hfailed
    rcases List.mem_cons.mp hq with rfl | hq
    · exact ⟨executor, getElem?_roster_append hp,
        List.mem_append_right _ (List.mem_singleton.mpr rfl)⟩
    · exact (h.append _).positive hfailed q hq

/-! ### The manager and the trace -/

/-- Pointers are positions in the roster, and every container holds only
pointers to registered executors. -/
structure Managed (m : ExecutorManager) (trace : List Event) : Prop where
  executors : m.executors = List.range m.infos.length
  handles : m.infos.map ExecutorInfo.executor = roster trace
  queue : ∀ p ∈ m.executorPriorityQueue, p ∈ m.executors
  table : ∀ entry ∈ m.contract2ExecutorInfo, entry.2 ∈ m.executors

variable {m : ExecutorManager}

theorem Managed.concat (h : Managed m trace) (hevent : event.registration = none) :
    Managed m (trace ++ [event]) :=
  ⟨h.executors, by rw [h.handles, roster_concat hevent], h.queue, h.table⟩

theorem Managed.size (h : Managed m trace) : m.executors.length = (roster trace).length := by
  rw [h.executors, List.length_range, ← h.handles, List.length_map]

theorem Managed.mem_executors (h : Managed m trace) :
    p ∈ m.executors ↔ p < (roster trace).length := by
  rw [h.executors, List.mem_range, ← h.handles, List.length_map]

theorem Managed.findContract (h : Managed m trace) {contract : String}
    (hfind : m.findContract contract = some p) : p ∈ m.executors := by
  obtain ⟨before, after, htable, -⟩ := List.lookup_eq_some_iff.mp hfind
  apply h.table (contract, p)
  rw [htable]
  exact List.mem_append_right _ List.mem_cons_self

theorem Managed.handle (h : Managed m trace) (hp : p ∈ m.executors) :
    (roster trace)[p]? = some (m.info p).executor := by
  rw [h.executors, List.mem_range] at hp
  rw [← h.handles, List.getElem?_map, ExecutorManager.info, List.getD_eq_getElem?_getD,
    List.getElem?_eq_getElem hp]
  rfl

theorem Managed.handle_mem (h : Managed m trace) (hp : p ∈ m.executors) :
    (m.info p).executor ∈ roster trace :=
  List.mem_of_getElem? (h.handle hp)

theorem Managed.addExecutor (h : Managed m trace) {name : String} (executor : Nat)
    (hname : name ∉ m.name2Executors.map Prod.fst) :
    Managed (m.addExecutor name executor).1 (trace ++ [.registered executor]) := by
  obtain ⟨hinfos, hnames, hqueue, htable⟩ := ExecutorManager.addExecutor_eq hname executor
  have hexecutors := ExecutorManager.executors_addExecutor hname executor
  refine ⟨?_, ?_, fun p hp => ?_, fun entry hentry => ?_⟩
  · rw [hexecutors, h.executors, hinfos, List.length_append, List.length_singleton,
      List.range_succ]
  · rw [hinfos, List.map_append, h.handles, roster_append]
    rfl
  · rw [hqueue] at hp
    rw [hexecutors]
    rcases List.mem_cons.mp ((BinaryHeap.push_perm _ _ _).mem_iff.mp hp) with rfl | hold
    · exact List.mem_append_right _ (List.mem_singleton.mpr rfl)
    · exact List.mem_append_left _ (h.queue p hold)
  · rw [htable] at hentry
    rw [hexecutors]
    exact List.mem_append_left _ (h.table entry hentry)

/-- A record that gets a contract keeps its executor. -/
theorem map_executor_set (hp : p < m.infos.length) {contract : String} :
    (m.infos.set p ((m.info p).insert contract)).map ExecutorInfo.executor
      = m.infos.map ExecutorInfo.executor := by
  have hinfo : m.info p = m.infos[p] := by
    rw [ExecutorManager.info, List.getD_eq_getElem?_getD, List.getElem?_eq_getElem hp]
    rfl
  have hlen : p < (m.infos.map ExecutorInfo.executor).length := by rwa [List.length_map]
  rw [List.map_set, hinfo]
  show (m.infos.map ExecutorInfo.executor).set p m.infos[p].executor = _
  rw [← List.getElem_map ExecutorInfo.executor (h := hlen)]
  exact List.set_getElem_self hlen

/-- The assignment of any contract, found by another call since or not. -/
theorem Managed.assign (h : Managed m trace) (contract : String) :
    Managed (m.assign contract).1 trace ∧ ∀ executor,
      (m.assign contract).2 = .returned (some executor) → executor ∈ roster trace := by
  rcases htop : BinaryHeap.top m.executorPriorityQueue with _ | p
  · simp only [ExecutorManager.assign, htop]
    exact ⟨h, fun executor hexecutor => by cases hexecutor⟩
  · have hp : p ∈ m.executors := h.queue p (List.mem_of_mem_head? htop)
    have hp' : p < m.infos.length := List.mem_range.mp (h.executors ▸ hp)
    have hpop : ∀ q ∈ BinaryHeap.pop m.load m.executorPriorityQueue, q ∈ m.executors :=
      fun q hq => h.queue q
        ((BinaryHeap.pop_perm _ htop).mem_iff.mpr (List.mem_cons_of_mem p hq))
    by_cases hnew : contract ∈ (m.info p).contracts
    · simp only [ExecutorManager.assign, htop, if_pos hnew]
      refine ⟨⟨h.executors, h.handles, hpop, h.table⟩, fun executor hexecutor => ?_⟩
      cases hexecutor
    · obtain ⟨houtcome, hinfos, -, hqueue, htable⟩ := ExecutorManager.assign_eq htop hnew
      have hexecutors := ExecutorManager.executors_assign htop hnew
      refine ⟨⟨?_, ?_, ?_, ?_⟩, fun executor hexecutor => ?_⟩
      · rw [hexecutors, hinfos, List.length_set, h.executors]
      · rw [hinfos, map_executor_set hp', h.handles]
      · intro q hq
        rw [hqueue] at hq
        rw [hexecutors]
        rcases List.mem_cons.mp ((BinaryHeap.push_perm _ _ _).mem_iff.mp hq) with rfl | hq
        · exact hp
        · exact hpop q hq
      · intro entry hentry
        rw [hexecutors]
        rw [htable] at hentry
        split_ifs at hentry
        · exact h.table entry hentry
        · rcases List.mem_append.mp hentry with hentry | hentry
          · exact h.table entry hentry
          · rw [List.mem_singleton.mp hentry]
            exact hp
      · rw [houtcome] at hexecutor
        cases hexecutor
        exact h.handle_mem hp

/-! ### The invariant -/

/-- What allows a request, at the moment it is sent. -/
structure Told (before : List Event) (request : Request) (e executor : Nat) : Prop where
  registered : executor ∈ roster before
  next : request ≠ .nextBlockHeader → Acknowledged .nextBlockHeader e before
  prepared : ∀ attempt, request = .commit attempt → Acknowledged (.prepare attempt) e before

/-- What the trace must hold for an event to come next. -/
def Event.Permitted (before : List Event) : Event → Prop
  | .request request e executor => Told before request e executor
  | .begun (.prepare _) e => .begun .nextBlockHeader e ∈ before
  | _ => True

/-- Every event of the trace was permitted. -/
def Lawful (trace : List Event) : Prop :=
  ∀ before event after, trace = before ++ event :: after → event.Permitted before

theorem Lawful.concat (h : Lawful trace) (hevent : event.Permitted trace) :
    Lawful (trace ++ [event]) := by
  intro before event' after heq
  rcases after.eq_nil_or_concat with rfl | ⟨after, last, rfl⟩
  · obtain ⟨rfl, hlast⟩ := List.append_inj' heq rfl
    rwa [← List.singleton_inj.mp hlast]
  · rw [List.concat_eq_append, ← List.cons_append, ← List.append_assoc] at heq
    obtain ⟨rfl, -⟩ := List.append_inj' heq rfl
    exact h before event' after rfl

/-- The size is read for `prepare` after it was read for `nextBlockHeader`. -/
theorem Lawful.rosterAt_isPrefix (h : Lawful trace) {attempt : Nat}
    (hbegun : .begun (.prepare attempt) e ∈ trace) :
    rosterAt .nextBlockHeader e trace <+: rosterAt (.prepare attempt) e trace := by
  obtain ⟨before, after, rfl, hfirst⟩ := List.eq_append_cons_of_mem hbegun
  have hnext : .begun .nextBlockHeader e ∈ before := h before _ after rfl
  rw [rosterAt_begun hfirst, rosterAt_append hnext]
  exact Registration.rosterAt_isPrefix

/-- What holds of a collection; two collections of one attempt to commit may
exist, and nothing is said of their counters. -/
structure Round.Good (executing : List Nat) (trace : List Event) (r : Round) : Prop where
  sound : (∀ attempt, r.request ≠ .commit attempt) → r.Sound trace
  asked : ∀ p ∈ r.asked, p < (roster trace).length
  late : r.request ≠ .nextBlockHeader → r.executive ∈ executing
  prepared : ∀ attempt, r.request = .commit attempt →
    Acknowledged (.prepare attempt) r.executive trace

theorem Round.Good.append {executing executing' : List Nat} (h : r.Good executing trace)
    (hsub : executing ⊆ executing') (events : List Event) :
    r.Good executing' (trace ++ events) where
  sound := fun hne => (h.sound hne).append events
  asked := by
    intro p hp
    rw [roster_append, List.length_append]
    exact Nat.lt_add_right _ (h.asked p hp)
  late := fun hne => hsub (h.late hne)
  prepared := fun attempt heq => (h.prepared attempt heq).append events

/-- `checkAndCommit` leaves the counters. -/
theorem Round.Good.checked {executing : List Nat} (h : r.Good executing trace) (p : Nat) :
    Round.Good executing trace { r with checked := p :: r.checked } := by
  refine ⟨fun hne => ?_, h.asked, h.late, h.prepared⟩
  have hsound := h.sound hne
  exact ⟨hsound.begun, hsound.total, hsound.asked, hsound.answered, hsound.nodup,
    hsound.counted, hsound.positive⟩

namespace State

variable {s s' : State}

structure Inv (s : State) : Prop where
  managed : Managed s.manager s.trace
  rounds : ∀ r ∈ s.rounds, r.Good s.executing s.trace
  executing : ∀ e ∈ s.executing, Acknowledged .nextBlockHeader e s.trace
  executed : ∀ e ∈ s.executed, e ∈ s.executing
  missed : ∀ call ∈ s.missed, call.2.1 ∈ s.executing ∧ call.1.dispatched = true
  lawful : Lawful s.trace

theorem Inv.initial : Inv {} where
  managed := ⟨rfl, rfl, by simp, by simp⟩
  rounds := by simp
  executing := by simp
  executed := by simp
  missed := by simp
  lawful := by
    intro before event after heq
    simp at heq

/-- An event other than a registration changes no more than the trace. -/
theorem Inv.emit (h : Inv s) (hevent : event.registration = none)
    (hpermitted : event.Permitted s.trace) : Inv (s.emit event) where
  managed := h.managed.concat hevent
  rounds := fun r hr => (h.rounds r hr).append (List.Subset.refl _) [event]
  executing := fun e he => (h.executing e he).append [event]
  executed := h.executed
  missed := h.missed
  lawful := h.lawful.concat hpermitted

/-- A collection moves on. -/
theorem Inv.setRound (h : Inv s) {i : Nat} (hr : r.Good s.executing s.trace) :
    Inv (s.setRound i r) where
  managed := h.managed
  rounds := by
    intro r' hr'
    rcases List.mem_or_eq_of_mem_set hr' with hold | rfl
    · exact h.rounds r' hold
    · exact hr
  executing := h.executing
  executed := h.executed
  missed := h.missed
  lawful := h.lawful

theorem Inv.openRound (h : Inv s) (hpermitted : (Event.begun request e).Permitted s.trace)
    (hr : Round.Good s.executing (s.trace ++ [.begun request e])
      { request, executive := e, waiting := request.self == 1
        status := { total := request.self + s.manager.executors.length } }) :
    Inv (s.openRound request e) := by
  have hemit : Inv (s.emit (.begun request e)) := h.emit rfl hpermitted
  refine ⟨hemit.managed, fun r hr' => ?_, hemit.executing, h.executed, h.missed, hemit.lawful⟩
  rcases List.mem_append.mp hr' with hold | hnew
  · exact hemit.rounds r hold
  · rw [List.mem_singleton.mp hnew]
    exact hr

/-- A first collection for the request. -/
theorem Inv.openFresh (h : Inv s) (hfresh : .begun request e ∉ s.trace)
    (hlate : request ≠ .nextBlockHeader → e ∈ s.executing)
    (hcommit : ∀ attempt, request ≠ .commit attempt) : Inv (s.openRound request e) := by
  have hpermitted : (Event.begun request e).Permitted s.trace := by
    cases request with
    | prepare attempt => exact (h.executing e (hlate (by simp))).1
    | _ => trivial
  apply h.openRound hpermitted
  refine ⟨fun _ => ?_, by simp, hlate, fun attempt heq => absurd heq (hcommit attempt)⟩
  rw [h.managed.size]
  exact Round.Sound.opened hfresh

theorem Inv.send (h : Inv s) {outcome : ExecutorManager.Outcome} (he : e ∈ s.executing)
    (hdispatched : request.dispatched = true)
    (houtcome : ∀ executor, outcome = .returned (some executor) → executor ∈ roster s.trace) :
    Inv (s.send request e outcome) := by
  rcases outcome with (_ | executor) | thrown | _
  · exact h
  · apply h.emit rfl
    refine ⟨houtcome executor rfl, fun _ => h.executing e he, ?_⟩
    rintro attempt rfl
    cases hdispatched
  · exact h
  · exact h

/-- A `checkAndCommit` that goes on lets the executive execute, or commit. -/
theorem Inv.checkAndCommit (h : Inv s) (hr : r.Good s.executing s.trace) :
    Inv (s.checkAndCommit r) := by
  unfold State.checkAndCommit
  split_ifs with hfull
  · obtain ⟨hfull, hfailed⟩ := hfull
    rcases hrequest : r.request with _ | _ | _ | attempt | attempt
    case nextBlockHeader =>
      have hack : Acknowledged .nextBlockHeader r.executive s.trace := by
        rw [← hrequest]
        exact (hr.sound (by simp [hrequest])).acknowledged hfull hfailed
      simp only [State.proceed, hrequest]
      refine ⟨h.managed, fun r' hr' => ?_, fun e he => ?_, ?_, ?_, h.lawful⟩
      · have hgood := (h.rounds r' hr').append (List.subset_cons_self r.executive _) []
        rwa [List.append_nil] at hgood
      · rcases List.mem_cons.mp he with rfl | he
        · exact hack
        · exact h.executing e he
      · exact fun e he => List.mem_cons_of_mem _ (h.executed e he)
      · exact fun call hcall => ⟨List.mem_cons_of_mem _ (h.missed call hcall).1,
          (h.missed call hcall).2⟩
    case prepare =>
      have hack : Acknowledged (.prepare attempt) r.executive s.trace := by
        rw [← hrequest]
        exact (hr.sound (by simp [hrequest])).acknowledged hfull hfailed
      simp only [State.proceed, hrequest]
      have hpermitted : (Event.begun (.commit attempt) r.executive).Permitted s.trace := trivial
      apply h.openRound hpermitted
      refine ⟨fun hne => absurd rfl (hne attempt), by simp, fun _ => hr.late (by simp [hrequest]), ?_⟩
      rintro attempt' ⟨⟩
      exact hack.append _
    all_goals
      simp only [State.proceed, hrequest]
      exact h
  · exact h

/-- A request of a collection.  The round is set after the event: the trace
that counts is the one with the request. -/
theorem Inv.ask (h : Inv s) {i : Nat} (hi : s.rounds[i]? = some r)
    (hp : p ∈ s.manager.executors) :
    Inv ((s.setRound i { r with asked := p :: r.asked }).emit
      (.request r.request r.executive (s.manager.info p).executor)) := by
  have hr := h.rounds r (List.mem_of_getElem? hi)
  have hemit : Inv (s.emit (.request r.request r.executive (s.manager.info p).executor)) :=
    h.emit rfl ⟨h.managed.handle_mem hp, fun hne => h.executing _ (hr.late hne), hr.prepared⟩
  have hgood := hr.append (List.Subset.refl _)
    [.request r.request r.executive (s.manager.info p).executor]
  apply hemit.setRound
  refine ⟨fun hne => ?_, fun q hq => ?_, hgood.late, hgood.prepared⟩
  · exact (hr.sound hne).ask (h.managed.mem_executors.mp hp) _
  · rcases List.mem_cons.mp hq with rfl | hq
    · exact hemit.managed.mem_executors.mp hp
    · exact hgood.asked q hq

theorem Inv.answer (h : Inv s) {i : Nat} (hi : s.rounds[i]? = some r) (hasked : p ∈ r.asked)
    (hnew : p ∉ r.answered) (ok : Bool) :
    Inv ((s.setRound i { r with answered := p :: r.answered, status := r.status.count ok }).emit
      (.answer r.request r.executive (s.manager.info p).executor ok)) := by
  have hr := h.rounds r (List.mem_of_getElem? hi)
  have hemit : Inv (s.emit (.answer r.request r.executive (s.manager.info p).executor ok)) :=
    h.emit rfl trivial
  have hgood := hr.append (List.Subset.refl _)
    [.answer r.request r.executive (s.manager.info p).executor ok]
  have hp : p ∈ s.manager.executors := h.managed.mem_executors.mpr (hr.asked p hasked)
  apply hemit.setRound
  exact ⟨fun hne => (hr.sound hne).answer (h.managed.handle hp) hasked hnew ok,
    hgood.asked, hgood.late, hgood.prepared⟩

theorem Step.inv (hstep : Step s s') (h : Inv s) : Inv s' := by
  cases hstep with
  | registerExecutor name executor hname =>
      refine ⟨h.managed.addExecutor executor hname, fun r hr => ?_, fun e he => ?_, h.executed,
        h.missed, h.lawful.concat trivial⟩
      · exact (h.rounds r hr).append (List.Subset.refl _) _
      · exact (h.executing e he).append _
  | batchNextBlock executive hfresh =>
      exact h.openFresh hfresh (fun hne => absurd rfl hne) fun attempt heq => by cases heq
  | @ask r i p hi _ hp _ => exact h.ask hi hp
  | @storage r i ok hi hwaiting =>
      have hr := h.rounds r (List.mem_of_getElem? hi)
      exact h.setRound ⟨fun hne => (hr.sound hne).storage hwaiting ok, hr.asked, hr.late,
        hr.prepared⟩
  | @answer r i p ok hi hasked hnew => exact h.answer hi hasked hnew ok
  | @check r i p hi _ _ =>
      have hr := h.rounds r (List.mem_of_getElem? hi)
      exact (h.setRound (hr.checked p)).checkAndCommit hr
  | @found p request executive contract he hdispatched hfind =>
      show Inv (s.send request executive (.returned (some (s.manager.info p).executor)))
      apply h.send he hdispatched
      rintro executor ⟨⟩
      exact h.managed.handle_mem (h.managed.findContract hfind)
  | missed request executive contract he hdispatched _ _ =>
      refine ⟨h.managed, h.rounds, h.executing, h.executed, fun call hcall => ?_, h.lawful⟩
      rcases List.mem_cons.mp hcall with rfl | hcall
      · exact ⟨he, hdispatched⟩
      · exact h.missed call hcall
  | assign request executive contract hcall =>
      obtain ⟨he, hdispatched⟩ := h.missed _ hcall
      obtain ⟨hmanaged, houtcome⟩ := h.managed.assign contract
      have hinv : Inv { s with manager := (s.manager.assign contract).1
                               missed := s.missed.erase (request, executive, contract) } :=
        ⟨hmanaged, h.rounds, h.executing, h.executed,
          fun call hmem => h.missed call (List.mem_of_mem_erase hmem), h.lawful⟩
      exact hinv.send he hdispatched houtcome
  | finish executive he =>
      refine ⟨h.managed, h.rounds, h.executing, fun e hmem => ?_, h.missed, h.lawful⟩
      rcases List.mem_cons.mp hmem with rfl | hmem
      · exact he
      · exact h.executed e hmem
  | commitBlock executive attempt he hfresh =>
      exact h.openFresh hfresh (fun _ => h.executed _ he) fun attempt heq => by cases heq

theorem Reachable.inv (hs : Reachable s) : Inv s := by
  induction hs with
  | initial => exact .initial
  | step _ hstep ih => exact hstep.inv ih

/-! ### Executors and the blocks they were told about -/

/-- **Executors work on blocks they were told about**, if they were registered
when the block began and nobody registers while they are told.

An executor counted by `batchNextBlock` of a block executive is asked to execute,
prepare or commit only after it has answered `nextBlockHeader` without error, in
every interleaving in which no registration falls between that reading and a
`nextBlockHeader` request; likewise one counted by the prepare phase is asked to
commit only after it has answered `prepare`.  While nobody has registered since
the block began, this covers every executor. -/
theorem executors_told (hs : Reachable s) {before after : List Event} {executor : Nat}
    (htrace : s.trace = before ++ .request request e executor :: after) :
    (request ≠ .nextBlockHeader → Undisturbed .nextBlockHeader e before →
      executor ∈ rosterAt .nextBlockHeader e before →
      .answer .nextBlockHeader e executor true ∈ before) ∧
    (∀ attempt, request = .commit attempt → Undisturbed (.prepare attempt) e before →
      executor ∈ rosterAt (.prepare attempt) e before →
      .answer (.prepare attempt) e executor true ∈ before) ∧
    (roster before = rosterAt .nextBlockHeader e before →
      (request ≠ .nextBlockHeader → .answer .nextBlockHeader e executor true ∈ before) ∧
      ∀ attempt, request = .commit attempt →
        .answer (.prepare attempt) e executor true ∈ before) := by
  have hlawful : Lawful (before ++ .request request e executor :: after) := htrace ▸ hs.inv.lawful
  have htold : Told before request e executor := hlawful before _ after rfl
  have hbefore : Lawful before := by
    intro before' event after' heq
    apply hlawful before' event (after' ++ .request request e executor :: after)
    rw [heq, List.append_assoc, List.cons_append]
  refine ⟨fun hne hcalm hmem => (htold.next hne).2 hcalm executor hmem,
    fun attempt heq hcalm hmem => (htold.prepared attempt heq).2 hcalm executor hmem,
    fun hquiet => ⟨fun hne => ?_, fun attempt heq => ?_⟩⟩
  · exact (htold.next hne).2 (undisturbed_of_roster_eq hquiet) executor
      (hquiet ▸ htold.registered)
  · have hack := htold.prepared attempt heq
    -- the reading for `prepare` lies between the beginning and now
    have hsame : roster before = rosterAt (.prepare attempt) e before := by
      refine (rosterAt_isPrefix.eq_of_length_le ?_).symm
      rw [hquiet]
      exact (hbefore.rosterAt_isPrefix hack.1).length_le
    exact hack.2 (undisturbed_of_roster_eq hsame) executor (hsame ▸ htold.registered)

/-- One executor, told about block executive `0`. -/
def executingOne : State where
  manager := (({} : ExecutorManager).addExecutor "executor1" 1).1
  rounds := [⟨.nextBlockHeader, 0, ⟨1, 1, 0⟩, false, [0], [0], [0]⟩]
  executing := [0]
  trace := [.registered 1, .begun .nextBlockHeader 0, .request .nextBlockHeader 0 1,
    .answer .nextBlockHeader 0 1 true]

theorem executingOne_reachable : Reachable executingOne := by
  have h₁ := Reachable.initial.step (.registerExecutor "executor1" 1 (by decide))
  have h₂ := h₁.step (.batchNextBlock 0 (by decide))
  have h₃ := h₂.step (.ask 0 0 rfl rfl (by decide) (by decide))
  have h₄ := h₃.step (.answer 0 0 true rfl (by decide) (by decide))
  have h₅ := h₄.step (.check 0 0 rfl (by decide) (by decide))
  exact h₅

/-- It is asked to execute after it answered. -/
theorem executors_told_one : ∃ s, Reachable s ∧
    s.trace = executingOne.trace ++ [.request .executeTransaction 0 1] ∧
    .answer .nextBlockHeader 0 1 true ∈ executingOne.trace := by
  have h₁ := executingOne_reachable.step
    (.missed .executeTransaction 0 "contract" (by decide) rfl (by decide) rfl)
  have h₂ := h₁.step (.assign .executeTransaction 0 "contract" (by decide))
  exact ⟨_, h₂, rfl, ((executors_told h₂ rfl).2.2 (by decide)).1 (by decide)⟩

/-- A second executor registers while the block is executed, and as the least
loaded one gets its next contract. -/
theorem late_executor_not_told :
    ¬ ∀ (s : State) (before after : List Event) (request : Request) (e executor : Nat),
      Reachable s → s.trace = before ++ .request request e executor :: after →
      (request ≠ .nextBlockHeader → .answer .nextBlockHeader e executor true ∈ before) ∧
      ∀ attempt, request = .commit attempt →
        .answer (.prepare attempt) e executor true ∈ before := by
  intro hclaim
  have h₁ := executingOne_reachable.step
    (.missed .executeTransaction 0 "contract1" (by decide) rfl (by decide) rfl)
  have h₂ := h₁.step (.assign .executeTransaction 0 "contract1" (by decide))
  have h₃ := h₂.step (.registerExecutor "executor2" 2 (by decide))
  have h₄ := h₃.step
    (.missed .executeTransaction 0 "contract2" (by decide) rfl (by decide) rfl)
  have h₅ := h₄.step (.assign .executeTransaction 0 "contract2" (by decide))
  have htold := (hclaim _ (executingOne.trace ++
    [.request .executeTransaction 0 1, .registered 2]) [] .executeTransaction 0 2 h₅ rfl).1
  exact absurd (htold (by decide)) (by decide)

end State

end Registration

end BcosScheduler
