/-
BcosScheduler/LedgerConfig.lean

`SchedulerImpl::asyncGetLedgerConfig`, the queries after a commit.

Six answers of the ledger are collected into one `LedgerConfig`: two node lists,
two values of the system configuration, the block number, and the hash of the
block with that number, which is asked for by the handler of the number.  A handler
stores its value, counts, and tests whether all six are counted, as separate
steps.  So the queries are a fan-in in the sense of `FanIn`: the callback is called
once if and only if the last reply is counted while no other handler is between
its count and its test; and what it is given is complete
(`asyncGetLedgerConfig_answers`).  A configuration value that is not a number
throws out of its handler, and the callback is never called.
-/
import BcosScheduler.CommitStatus
import BcosScheduler.Lib.FanIn

namespace BcosScheduler

/-! ### The queries -/

/-- The six answers that are collected. -/
inductive LedgerQuery
  | sealers
  | observers
  | txCountLimit
  | leaderPeriod
  | blockNumber
  | blockHash
  deriving DecidableEq, Repr

instance : Fintype LedgerQuery where
  elems := {.sealers, .observers, .txCountLimit, .leaderPeriod, .blockNumber, .blockHash}
  complete := fun q => by cases q <;> simp

/-- The variant that is handed to `collecter`; `N` are the consensus nodes. -/
inductive LedgerValue (N : Type*)
  | nodeList (isSealer : Bool) (list : List N)
  | config (type : Int) (value : String)
  | number (number : BlockNumber)
  | hash (hash : H256)
  deriving DecidableEq

/-- `LedgerConfig`, with the fields `collecter` sets. -/
structure LedgerConfig (N : Type*) where
  consensusNodeList : List N
  observerNodeList : List N
  blockTxCountLimit : Nat
  leaderSwitchPeriod : Nat
  blockNumber : BlockNumber
  hash : H256
  deriving DecidableEq

/-- The value of a decimal numeral, if it has a digit and nothing else. -/
def decimal (digits : List Char) : Option Nat :=
  if digits ≠ [] ∧ digits.all Char.isDigit then
    some (digits.foldl (fun n c => 10 * n + (c.toNat - '0'.toNat)) 0)
  else none

/-- `boost::lexical_cast<uint64_t>`: a decimal numeral below `2 ^ 64`, with a sign or
without; a negative one wraps around. -/
def lexicalCastUInt64 (text : String) : Option Nat :=
  let bounded (digits : List Char) : Option Nat :=
    (decimal digits).filter fun n => n < 2 ^ 64
  match text.toList with
  | '-' :: digits => (bounded digits).map fun n => (2 ^ 64 - n) % 2 ^ 64
  | '+' :: digits => bounded digits
  | digits => bounded digits

variable {N : Type*}

/-- The visitor of `collecter`; `none` where it throws. -/
def LedgerConfig.set (config : LedgerConfig N) : LedgerValue N → Option (LedgerConfig N)
  | .nodeList true list => some { config with consensusNodeList := list }
  | .nodeList false list => some { config with observerNodeList := list }
  | .config type value =>
      if type = 0 then
        (lexicalCastUInt64 value).map fun n => { config with blockTxCountLimit := n }
      else if type = 1 then
        (lexicalCastUInt64 value).map fun n => { config with leaderSwitchPeriod := n }
      else none
  | .number number => some { config with blockNumber := number }
  | .hash hash => some { config with hash := hash }

/-- What the handler of a query hands to `collecter` on success. -/
inductive LedgerQuery.Gives : LedgerQuery → LedgerValue N → Prop
  | sealers (list : List N) : Gives .sealers (.nodeList true list)
  | observers (list : List N) : Gives .observers (.nodeList false list)
  | txCountLimit (value : String) : Gives .txCountLimit (.config 0 value)
  | leaderPeriod (value : String) : Gives .leaderPeriod (.config 1 value)
  | blockNumber (number : BlockNumber) : Gives .blockNumber (.number number)
  | blockHash (hash : H256) : Gives .blockHash (.hash hash)

/-- The field of a query holds the value it was given. -/
def LedgerQuery.holds (config : LedgerConfig N) : LedgerQuery → LedgerValue N → Prop
  | .sealers, .nodeList _ list => config.consensusNodeList = list
  | .observers, .nodeList _ list => config.observerNodeList = list
  | .txCountLimit, .config _ value => lexicalCastUInt64 value = some config.blockTxCountLimit
  | .leaderPeriod, .config _ value => lexicalCastUInt64 value = some config.leaderSwitchPeriod
  | .blockNumber, .number number => config.blockNumber = number
  | .blockHash, .hash hash => config.hash = hash
  | _, _ => False

/-- Storing the value of one query leaves the fields of the others. -/
theorem LedgerQuery.holds_set {p q : LedgerQuery} {v w : LedgerValue N}
    {config config' : LedgerConfig N} (hq : q.Gives v) (hset : config.set v = some config')
    (hne : p ≠ q) (h : p.holds config w) : p.holds config' w := by
  cases hq with
  | txCountLimit value | leaderPeriod value =>
      obtain ⟨n, -, rfl⟩ := Option.map_eq_some_iff.mp hset
      cases p <;> cases w <;> first | exact h | exact absurd rfl hne
  | _ =>
      cases hset
      cases p <;> cases w <;> first | exact h | exact absurd rfl hne

/-- The field of the query holds the value that was stored. -/
theorem LedgerQuery.holds_of_set {q : LedgerQuery} {v : LedgerValue N}
    {config config' : LedgerConfig N} (hq : q.Gives v) (hset : config.set v = some config') :
    q.holds config' v := by
  cases hq with
  | txCountLimit value | leaderPeriod value =>
      obtain ⟨n, hn, rfl⟩ := Option.map_eq_some_iff.mp hset
      exact hn
  | _ =>
      cases hset
      rfl

/-! ### The handlers -/

/-- Where the handler of a query stands: `stored` is before its count, `counted` before
its test, `thrown` where the visitor has thrown. -/
inductive QueryStage
  | idle
  | thrown
  | stored (ok : Bool)
  | counted (ok : Bool)
  | tested (ok : Bool)
  deriving DecidableEq, Repr

/-- State of `asyncGetLedgerConfig`: the shared config and counters, the number the hash is
asked for with the reply that brought it, what the handlers were given, where they stand, and
the calls of the callback. -/
structure LedgerQueries (N : Type*) where
  ledgerConfig : LedgerConfig N
  summary : CommitStatus := { total := 6 }
  number : Option (Option Error × BlockNumber) := none
  received : LedgerQuery → Option (Except Error (LedgerValue N)) := fun _ => none
  stage : LedgerQuery → QueryStage := fun _ => .idle
  callbacks : List (Except Error (LedgerConfig N)) := []

namespace LedgerQueries

/-- `collecter` up to its count. -/
def collect (s : LedgerQueries N) (q : LedgerQuery) (result : Except Error (LedgerValue N)) :
    LedgerQueries N :=
  let s := { s with received := Function.update s.received q (some result) }
  match result with
  | .error _ => { s with stage := Function.update s.stage q (.stored false) }
  | .ok value =>
      match s.ledgerConfig.set value with
      | none => { s with stage := Function.update s.stage q .thrown }
      | some config =>
          { s with ledgerConfig := config, stage := Function.update s.stage q (.stored true) }

/-- `++success` or `++failed`. -/
def count (s : LedgerQueries N) (q : LedgerQuery) (ok : Bool) : LedgerQueries N :=
  { s with summary := s.summary.count ok, stage := Function.update s.stage q (.counted ok) }

/-- The end of `collecter`. -/
def collectDone (s : LedgerQueries N) : List (Except Error (LedgerConfig N)) :=
  if s.summary.success + s.summary.failed = s.summary.total then
    if 0 < s.summary.failed then
      [.error (SchedulerError.UnknownError.error "Get ledger config with error")]
    else [.ok s.ledgerConfig]
  else []

def test (s : LedgerQueries N) (q : LedgerQuery) (ok : Bool) : LedgerQueries N :=
  { s with stage := Function.update s.stage q (.tested ok)
           callbacks := s.callbacks ++ s.collectDone }

/-- One step of a handler.  The handler of the number asks for the hash first, also
when it was given an error. -/
inductive Step : LedgerQueries N → LedgerQueries N → Prop
  | askHash {s : LedgerQueries N} (error : Option Error) (number : BlockNumber) :
      s.number = none → Step s { s with number := some (error, number) }
  | collectNumber {s : LedgerQueries N} {error : Option Error} {number : BlockNumber} :
      s.number = some (error, number) → s.stage .blockNumber = .idle →
      Step s (s.collect .blockNumber (match error with
        | some e => .error e
        | none => .ok (.number number)))
  | collectError {s : LedgerQueries N} (q : LedgerQuery) (e : Error) : q ≠ .blockNumber →
      (q = .blockHash → s.number ≠ none) → s.stage q = .idle → Step s (s.collect q (.error e))
  | collect {s : LedgerQueries N} (q : LedgerQuery) (value : LedgerValue N) : q ≠ .blockNumber →
      (q = .blockHash → s.number ≠ none) → q.Gives value → s.stage q = .idle →
      Step s (s.collect q (.ok value))
  | count {s : LedgerQueries N} (q : LedgerQuery) {ok : Bool} : s.stage q = .stored ok →
      Step s (s.count q ok)
  | test {s : LedgerQueries N} (q : LedgerQuery) {ok : Bool} : s.stage q = .counted ok →
      Step s (s.test q ok)

/-- `asyncGetLedgerConfig` when all queries are sent. -/
def start (config : LedgerConfig N) : LedgerQueries N := { ledgerConfig := config }

def Steps (config : LedgerConfig N) : LedgerQueries N → Prop :=
  Relation.ReflTransGen Step (start config)

end LedgerQueries

/-! ### The fan-in behind it -/

/-- The reply a handler has counted. -/
def QueryStage.reply : QueryStage → Option Bool
  | .counted ok => some ok
  | .tested ok => some ok
  | _ => none

/-- The handler is through. -/
def QueryStage.isTested : QueryStage → Bool
  | .tested _ => true
  | _ => false

namespace LedgerQueries

variable {s s' : LedgerQueries N} {q : LedgerQuery} {config : LedgerConfig N}

def view (s : LedgerQueries N) : FanIn LedgerQuery where
  reply := fun q => (s.stage q).reply
  checked := fun q => (s.stage q).isTested
  calls := s.callbacks.map fun answer => match answer with
    | .error _ => true
    | .ok _ => false

/-- The counters count the replies. -/
def Counted (s : LedgerQueries N) : Prop := s.summary.Counts fun q => (s.stage q).reply

theorem map_update_stage {α : Type*} (f : QueryStage → α) (stage : LedgerQuery → QueryStage)
    (q : LedgerQuery) (h : QueryStage) :
    (fun p => f (Function.update stage q h p)) = Function.update (fun p => f (stage p)) q (f h) := by
  funext p
  by_cases hp : p = q
  · subst hp
    simp
  · simp [Function.update_of_ne hp]

/-- A stage that is not yet counted is replaced by another one. -/
theorem update_of_eq {α : Type*} {f : LedgerQuery → α} {a : α} (h : f q = a) :
    Function.update f q a = f := by
  rw [← h, Function.update_eq_self]

/-- What `collecter` does up to its count: nothing to the config on an error, or where the
visitor throws. -/
theorem collect_cases (s : LedgerQueries N) (q : LedgerQuery)
    (result : Except Error (LedgerValue N)) :
    ∃ config h, s.collect q result
        = { s with ledgerConfig := config, stage := Function.update s.stage q h
                   received := Function.update s.received q (some result) } ∧
      ((∃ e, result = .error e ∧ h = .stored false ∧ config = s.ledgerConfig) ∨
        (∃ v, result = .ok v ∧ h = .thrown ∧ config = s.ledgerConfig) ∨
        ∃ v, result = .ok v ∧ h = .stored true ∧ s.ledgerConfig.set v = some config) := by
  unfold collect
  rcases result with e | value
  · exact ⟨s.ledgerConfig, _, rfl, Or.inl ⟨e, rfl, rfl, rfl⟩⟩
  · dsimp only
    rcases hset : s.ledgerConfig.set value with _ | config
    · exact ⟨s.ledgerConfig, _, rfl, Or.inr (Or.inl ⟨value, rfl, rfl, rfl⟩)⟩
    · exact ⟨config, _, rfl, Or.inr (Or.inr ⟨value, rfl, rfl, hset⟩)⟩

/-- It is not seen in the counters, nor in the fan-in. -/
theorem collect_unseen (hidle : s.stage q = .idle) (result : Except Error (LedgerValue N)) :
    (s.collect q result).view = s.view ∧ (s.Counted → (s.collect q result).Counted) := by
  obtain ⟨config, h, heq, hcases⟩ := s.collect_cases q result
  have hreply : h.reply = none ∧ h.isTested = false := by
    rcases hcases with ⟨-, -, rfl, -⟩ | ⟨-, -, rfl, -⟩ | ⟨-, -, rfl, -⟩
    all_goals exact ⟨rfl, rfl⟩
  have hkeep : (fun p => (Function.update s.stage q h p).reply) = fun p => (s.stage p).reply := by
    rw [map_update_stage QueryStage.reply, hreply.1]
    exact update_of_eq (by rw [hidle]; rfl)
  have hkeep' : (fun p => (Function.update s.stage q h p).isTested)
      = fun p => (s.stage p).isTested := by
    rw [map_update_stage QueryStage.isTested, hreply.2]
    exact update_of_eq (by rw [hidle]; rfl)
  rw [heq]
  refine ⟨FanIn.ext hkeep hkeep' rfl, fun hcounted => ?_⟩
  show CommitStatus.Counts _ _
  rw [hkeep]
  exact hcounted

/-- What the last test hands to the callback. -/
theorem collectDone_of_full (h : s.Counted) (hfull : s.view.Full) :
    (s.view.Failed ∧ s.collectDone
        = [.error (SchedulerError.UnknownError.error "Get ledger config with error")]) ∨
      ¬ s.view.Failed ∧ s.collectDone = [.ok s.ledgerConfig] := by
  have hcount : s.summary.success + s.summary.failed = s.summary.total := by
    have hall := of_decide_eq_true (h.full_iff.mpr hfull)
    have hle := Tally.count_add_le fun q => (s.stage q).reply
    rw [← h.success, ← h.failed, ← h.total] at hle
    exact le_antisymm hle hall
  unfold collectDone
  rw [if_pos hcount]
  by_cases hfailed : 0 < s.summary.failed
  · rw [if_pos hfailed]
    exact Or.inl ⟨h.failed_pos_iff.mp hfailed, rfl⟩
  · rw [if_neg hfailed]
    exact Or.inr ⟨fun hf => hfailed (h.failed_pos_iff.mpr hf), rfl⟩

theorem collectDone_of_not_full (h : s.Counted) (hfull : ¬ s.view.Full) : s.collectDone = [] := by
  unfold collectDone
  rw [if_neg]
  intro heq
  refine hfull (h.full_iff.mp (decide_eq_true ?_))
  exact heq.ge

/-- The steps are steps of the fan-in, or not seen there. -/
theorem Step.view (hstep : Step s s') (h : s.Counted) :
    s'.Counted ∧ (s'.view = s.view ∨ FanIn.Step (fun _ => true) s.view s'.view) := by
  have hunseen : ∀ {q : LedgerQuery} (result : Except Error (LedgerValue N)), s.stage q = .idle →
      (s.collect q result).Counted ∧ ((s.collect q result).view = s.view ∨
        FanIn.Step (fun _ => true) s.view (s.collect q result).view) := by
    intro q result hidle
    obtain ⟨hview, hcounted⟩ := collect_unseen hidle result
    exact ⟨hcounted h, Or.inl hview⟩
  cases hstep with
  | askHash error number hnone => exact ⟨h, Or.inl rfl⟩
  | collectNumber hnumber hidle => exact hunseen _ hidle
  | collectError q e hq hasked hidle => exact hunseen _ hidle
  | collect q value hq hasked hgives hidle => exact hunseen _ hidle
  | @count q ok hstage =>
      have hnone : (s.stage q).reply = none := by rw [hstage]; rfl
      have hreply : (fun p => (Function.update s.stage q (.counted ok) p).reply)
          = Function.update (fun p => (s.stage p).reply) q (some ok) :=
        map_update_stage QueryStage.reply _ _ _
      have hchecked : (fun p => (Function.update s.stage q (.counted ok) p).isTested)
          = fun p => (s.stage p).isTested := by
        rw [map_update_stage QueryStage.isTested]
        exact update_of_eq (by rw [hstage]; rfl)
      refine ⟨?_, Or.inr ?_⟩
      · show CommitStatus.Counts _ _
        rw [LedgerQueries.count, hreply]
        exact CommitStatus.Counts.count h hnone ok
      · have heq : (s.count q ok).view
            = { s.view with reply := Function.update s.view.reply q (some ok) } :=
          FanIn.ext hreply hchecked rfl
        rw [heq]
        exact .count q ok hnone fun _ p hp => by cases hp
  | @test q ok hstage =>
      have hsome : (s.stage q).reply ≠ none := by rw [hstage]; exact Option.some_ne_none ok
      have hnot : (s.stage q).isTested = false := by rw [hstage]; rfl
      have hreply : (fun p => (Function.update s.stage q (.tested ok) p).reply)
          = fun p => (s.stage p).reply := by
        rw [map_update_stage QueryStage.reply]
        exact update_of_eq (by rw [hstage]; rfl)
      have hchecked : (fun p => (Function.update s.stage q (.tested ok) p).isTested)
          = Function.update (fun p => (s.stage p).isTested) q true :=
        map_update_stage QueryStage.isTested _ _ _
      refine ⟨?_, Or.inr ?_⟩
      · show CommitStatus.Counts _ _
        rw [LedgerQueries.test, hreply]
        exact h
      · by_cases hfull : s.view.Full
        · -- the verdict is whether the callback is given an error
          have hcall : ∃ failed, (failed = true ↔ s.view.Failed) ∧ (s.test q ok).view
              = { s.view with checked := Function.update s.view.checked q true
                              calls := s.view.calls ++ [failed] } := by
            rcases collectDone_of_full h hfull with ⟨hfailed, hdone⟩ | ⟨hfailed, hdone⟩
            · refine ⟨true, by simp [hfailed], FanIn.ext hreply hchecked ?_⟩
              simp [LedgerQueries.view, LedgerQueries.test, hdone]
            · refine ⟨false, by simp [hfailed], FanIn.ext hreply hchecked ?_⟩
              simp [LedgerQueries.view, LedgerQueries.test, hdone]
          obtain ⟨failed, hverdict, heq⟩ := hcall
          rw [heq]
          exact .checkFull q failed rfl hsome hnot hfull hverdict
        · have heq : (s.test q ok).view
              = { s.view with checked := Function.update s.view.checked q true } := by
            refine FanIn.ext hreply hchecked ?_
            simp [LedgerQueries.view, LedgerQueries.test, collectDone_of_not_full h hfull]
          rw [heq]
          exact .checkEarly q rfl hsome hnot hfull

theorem counted_start (config : LedgerConfig N) : (start config).Counted := CommitStatus.Counts.init

/-! ### What the config holds -/

/-- The stages agree with what the handlers were given, and the config holds what was
stored. -/
structure Inv (s : LedgerQueries N) : Prop where
  idle : ∀ q, s.stage q = .idle ↔ s.received q = none
  error : ∀ q e, s.received q = some (.error e) →
    s.stage q = .stored false ∨ s.stage q = .counted false ∨ s.stage q = .tested false
  value : ∀ q v, s.received q = some (.ok v) → s.stage q ≠ .thrown →
    q.holds s.ledgerConfig v ∧
      (s.stage q = .stored true ∨ s.stage q = .counted true ∨ s.stage q = .tested true)
  /-- The number is that of the query for the hash. -/
  number : ∀ result, s.received .blockNumber = some result → ∃ error number,
    s.number = some (error, number) ∧ ∀ v, result = .ok v → v = .number number ∧ error = none
  asked : s.received .blockHash ≠ none → s.number ≠ none
  answers : ∀ answer ∈ s.callbacks, s.view.Full ∧
    (answer = .error (SchedulerError.UnknownError.error "Get ledger config with error") ∧
      s.view.Failed ∨ answer = .ok s.ledgerConfig ∧ ¬ s.view.Failed)

theorem inv_start (config : LedgerConfig N) : (start config).Inv where
  idle := fun _ => ⟨fun _ => rfl, fun _ => rfl⟩
  error := by simp [start]
  value := by simp [start]
  number := by simp [start]
  asked := by simp [start]
  answers := by simp [start]

/-- Before an idle handler is through nobody was called back. -/
theorem Inv.callbacks_nil (h : s.Inv) (hq : (s.stage q).reply = none) : s.callbacks = [] := by
  apply List.eq_nil_iff_forall_not_mem.mpr
  intro answer hmem
  exact (h.answers answer hmem).1 q hq

theorem Inv.collect (h : s.Inv) (hidle : s.stage q = .idle) {result : Except Error (LedgerValue N)}
    (hgives : ∀ v, result = .ok v → q.Gives v)
    (hnumber : q = .blockNumber → ∃ error number, s.number = some (error, number) ∧
      ∀ v, result = .ok v → v = .number number ∧ error = none)
    (hasked : q = .blockHash → s.number ≠ none) : (s.collect q result).Inv := by
  have hnil := h.callbacks_nil (q := q) (by rw [hidle]; rfl)
  obtain ⟨config, stage, heq, hcases⟩ := s.collect_cases q result
  rw [heq]
  refine ⟨fun p => ?_, fun p e hp => ?_, fun p v hp hthrown => ?_, fun result' hr => ?_,
    fun hr => ?_, by simp [hnil]⟩
  · by_cases hpq : p = q
    · subst hpq
      rcases hcases with ⟨-, -, rfl, -⟩ | ⟨-, -, rfl, -⟩ | ⟨-, -, rfl, -⟩
      all_goals simp
    · simp only [Function.update_of_ne hpq]
      exact h.idle p
  · by_cases hpq : p = q
    · subst hpq
      simp only [Function.update_self, Option.some.injEq] at hp ⊢
      rcases hcases with ⟨e', -, rfl, -⟩ | ⟨v, hv, -⟩ | ⟨v, hv, -⟩
      · exact Or.inl rfl
      · rw [hv] at hp
        cases hp
      · rw [hv] at hp
        cases hp
    · simp only [Function.update_of_ne hpq] at hp ⊢
      exact h.error p e hp
  · by_cases hpq : p = q
    · subst hpq
      simp only [Function.update_self, Option.some.injEq] at hp hthrown ⊢
      rcases hcases with ⟨e', he, -⟩ | ⟨v', -, rfl, -⟩ | ⟨v', hv, rfl, hset⟩
      · rw [he] at hp
        cases hp
      · exact absurd rfl hthrown
      · obtain rfl : v' = v := by
          rw [hv] at hp
          exact Except.ok.inj hp
        exact ⟨LedgerQuery.holds_of_set (hgives _ hv) hset, Or.inl rfl⟩
    · simp only [Function.update_of_ne hpq] at hp hthrown ⊢
      obtain ⟨hholds, hwhere⟩ := h.value p v hp hthrown
      refine ⟨?_, hwhere⟩
      rcases hcases with ⟨-, -, -, rfl⟩ | ⟨-, -, -, rfl⟩ | ⟨v', hv, -, hset⟩
      · exact hholds
      · exact hholds
      · exact LedgerQuery.holds_set (hgives _ hv) hset hpq hholds
  · by_cases hpq : .blockNumber = q
    · subst hpq
      simp only [Function.update_self, Option.some.injEq] at hr
      exact hr ▸ hnumber rfl
    · simp only [Function.update_of_ne hpq] at hr
      exact h.number result' hr
  · by_cases hpq : .blockHash = q
    · exact hasked hpq.symm
    · simp only [Function.update_of_ne hpq] at hr
      exact h.asked hr

/-- A handler goes on from one stage to the next with the same verdict. -/
theorem Inv.goOn (h : s.Inv) {stage : QueryStage} {ok : Bool}
    (hnow : s.stage q = .stored ok ∨ s.stage q = .counted ok)
    (hnext : stage = .counted ok ∨ stage = .tested ok)
    (hanswers : ∀ answer ∈ s'.callbacks, s'.view.Full ∧
      (answer = .error (SchedulerError.UnknownError.error "Get ledger config with error") ∧
        s'.view.Failed ∨ answer = .ok s'.ledgerConfig ∧ ¬ s'.view.Failed))
    (hstage : s'.stage = Function.update s.stage q stage)
    (hconfig : s'.ledgerConfig = s.ledgerConfig) (hreceived : s'.received = s.received)
    (hnumber : s'.number = s.number) : s'.Inv := by
  refine ⟨fun p => ?_, fun p e hp => ?_, fun p v hp hthrown => ?_, ?_, ?_, hanswers⟩
  · rw [hstage, hreceived, ← h.idle p]
    by_cases hpq : p = q
    · subst hpq
      rw [Function.update_self]
      rcases hnow with hnow | hnow <;> rcases hnext with rfl | rfl <;> simp [hnow]
    · rw [Function.update_of_ne hpq]
  · rw [hreceived] at hp
    have hwhere := h.error p e hp
    rw [hstage]
    by_cases hpq : p = q
    · subst hpq
      rw [Function.update_self]
      rcases hnow with hnow | hnow <;> rw [hnow] at hwhere <;>
        rcases hnext with rfl | rfl <;> simpa using hwhere
    · rw [Function.update_of_ne hpq]
      exact hwhere
  · rw [hreceived] at hp
    rw [hconfig]
    rw [hstage] at hthrown ⊢
    by_cases hpq : p = q
    · subst hpq
      obtain ⟨hholds, hwhere⟩ := h.value p v hp (by rcases hnow with hnow | hnow <;> simp [hnow])
      refine ⟨hholds, ?_⟩
      rw [Function.update_self]
      rcases hnow with hnow | hnow <;> rw [hnow] at hwhere <;>
        rcases hnext with rfl | rfl <;> simpa using hwhere
    · rw [Function.update_of_ne hpq] at hthrown ⊢
      exact h.value p v hp hthrown
  · rw [hreceived, hnumber]
    exact h.number
  · rw [hreceived, hnumber]
    exact h.asked

theorem Step.inv (hstep : Step s s') (hcounted : s.Counted) (h : s.Inv) : s'.Inv := by
  cases hstep with
  | askHash error number hnone =>
      refine ⟨h.idle, h.error, h.value, fun result hr => ?_, fun hr => ?_, h.answers⟩
      · obtain ⟨_, _, hsome, -⟩ := h.number result hr
        rw [hnone] at hsome
        cases hsome
      · exact absurd hnone (h.asked hr)
  | @collectNumber error number hnumber hidle =>
      refine h.collect hidle (fun v hv => ?_) (fun _ => ⟨error, number, hnumber, fun v hv => ?_⟩)
        fun hq => by cases hq
      · rcases error with _ | e
        · cases hv
          exact .blockNumber number
        · cases hv
      · rcases error with _ | e
        · cases hv
          exact ⟨rfl, rfl⟩
        · cases hv
  | collectError q e hq hasked hidle =>
      exact h.collect hidle (fun v hv => by cases hv) (fun heq => absurd heq hq) hasked
  | collect q value hq hasked hgives hidle =>
      refine h.collect hidle (fun v hv => ?_) (fun heq => absurd heq hq) hasked
      cases hv
      exact hgives
  | @count q ok hstage =>
      have hnil := h.callbacks_nil (q := q) (by rw [hstage]; rfl)
      refine h.goOn (Or.inl hstage) (Or.inl rfl) ?_ rfl rfl rfl rfl
      show ∀ answer ∈ s.callbacks, _
      simp [hnil]
  | @test q ok hstage =>
      refine h.goOn (Or.inr hstage) (Or.inr rfl) ?_ rfl rfl rfl rfl
      have hreply : (s.test q ok).view.reply = s.view.reply := by
        show (fun p => (Function.update s.stage q (.tested ok) p).reply) = _
        rw [map_update_stage QueryStage.reply]
        exact update_of_eq (by rw [hstage]; rfl)
      have hfull : (s.test q ok).view.Full ↔ s.view.Full := by
        rw [FanIn.Full, hreply]
        rfl
      have hfailed : (s.test q ok).view.Failed ↔ s.view.Failed := by
        rw [FanIn.Failed, hreply]
        rfl
      intro answer hmem
      rw [hfull, hfailed]
      rcases List.mem_append.mp hmem with hmem | hmem
      · exact h.answers answer hmem
      · by_cases hall : s.view.Full
        · rcases collectDone_of_full hcounted hall with ⟨hf, hdone⟩ | ⟨hf, hdone⟩
          · rw [hdone, List.mem_singleton] at hmem
            exact ⟨hall, Or.inl ⟨hmem, hf⟩⟩
          · rw [hdone, List.mem_singleton] at hmem
            exact ⟨hall, Or.inr ⟨hmem, hf⟩⟩
        · rw [collectDone_of_not_full hcounted hall] at hmem
          cases hmem

theorem Steps.inv (h : Steps config s) : s.Counted ∧ s.Inv := by
  induction h with
  | refl => exact ⟨counted_start config, inv_start config⟩
  | tail _ hstep ih => exact ⟨(hstep.view ih.1).1, hstep.inv ih.1 ih.2⟩

/-- The config holds the values of all six answers, and the hash was asked for with
its number. -/
def Complete (s : LedgerQueries N) (config : LedgerConfig N) : Prop :=
  (∀ q, ∃ v, s.received q = some (.ok v) ∧ q.holds config v) ∧
    s.number = some (none, config.blockNumber)

/-- When every reply is counted and none has failed, the config is complete. -/
theorem Inv.complete (h : s.Inv) (hfull : s.view.Full) (hok : ¬ s.view.Failed) :
    s.Complete s.ledgerConfig := by
  have hvalue : ∀ q, ∃ v, s.received q = some (.ok v) ∧ q.holds s.ledgerConfig v := by
    intro q
    have hreply : (s.stage q).reply ≠ none := hfull q
    have hthrown : s.stage q ≠ .thrown := by
      intro heq
      rw [heq] at hreply
      exact hreply rfl
    rcases hr : s.received q with _ | (e | v)
    · rw [(h.idle q).mpr hr] at hreply
      exact absurd rfl hreply
    · -- an error would have been counted as one
      refine absurd ⟨q, ?_⟩ hok
      show (s.stage q).reply = some false
      rcases h.error q e hr with hq | hq | hq
      · rw [hq] at hreply
        exact absurd rfl hreply
      · rw [hq]
        rfl
      · rw [hq]
        rfl
    · exact ⟨v, rfl, (h.value q v hr hthrown).1⟩
  refine ⟨hvalue, ?_⟩
  obtain ⟨v, hv, hholds⟩ := hvalue .blockNumber
  obtain ⟨error, number, hnumber, hsame⟩ := h.number _ hv
  obtain ⟨rfl, rfl⟩ := hsame v rfl
  rw [hnumber, show s.ledgerConfig.blockNumber = number from hholds]

end LedgerQueries

open LedgerQueries

/-- **The configuration after a commit.**  In every interleaving of the six handlers the
callback of `asyncGetLedgerConfig` is called only when all six replies are counted, with an
error iff one of them was an error, and otherwise with a config that holds the six values, its
hash being that of its block number; it is called exactly once if and only if the last reply is
counted while no other handler is between its count and its test; and never if a value of the
system configuration is not a number. -/
theorem asyncGetLedgerConfig_answers (config : LedgerConfig N) :
    FanIn.OnceIfAlone (fun _ => true) LedgerQueries.Step (LedgerQueries.start config)
      LedgerQueries.view ∧
    ∀ s, LedgerQueries.Steps config s →
      (∀ answer ∈ s.callbacks,
        (answer = .error (SchedulerError.UnknownError.error "Get ledger config with error") ∧
          ∃ q e, s.received q = some (.error e)) ∨
        ∃ config', answer = .ok config' ∧ s.Complete config') ∧
      ((∃ q, s.stage q = .thrown) → s.callbacks = []) := by
  refine ⟨?_, fun s hrun => ?_⟩
  · apply FanIn.once_of_simulates (I := fun s => s.Counted) ⟨.sealers, rfl⟩
    · exact counted_start config
    · exact fun s s' h hstep => (hstep.view h).1
    · exact fun s s' h hstep => (hstep.view h).2
    · rfl
  · obtain ⟨-, hinv⟩ := hrun.inv
    refine ⟨fun answer hmem => ?_, fun ⟨q, hq⟩ => hinv.callbacks_nil (q := q) (by rw [hq]; rfl)⟩
    obtain ⟨hfull, ⟨hanswer, q, hq⟩ | ⟨hanswer, hok⟩⟩ := hinv.answers answer hmem
    · refine Or.inl ⟨hanswer, q, ?_⟩
      -- the failure was counted for an error
      have hreply : (s.stage q).reply = some false := hq
      rcases hr : s.received q with _ | (e | v)
      · rw [(hinv.idle q).mpr hr] at hreply
        cases hreply
      · exact ⟨e, rfl⟩
      · have hthrown : s.stage q ≠ .thrown := by
          intro heq
          rw [heq] at hreply
          cases hreply
        rcases (hinv.value q v hr hthrown).2 with heq | heq | heq <;> rw [heq] at hreply <;>
          cases hreply
    · exact Or.inr ⟨_, hanswer, hinv.complete hfull hok⟩

end BcosScheduler
