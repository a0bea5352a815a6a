/-
BcosScheduler/Hashes.lean

`BlockExecutive::batchGetHashes`: every executor is asked for its hash, the
state root is the XOR of the answers.

A reply handler takes three separate steps — increment `success`, XOR the
hash into `totalHash` under the mutex, run `checkAndCommit` — and the
handlers of the executors interleave freely (`GetHashes.Step`).  The counter
that lets `checkAndCommit` answer is incremented *before* the XOR, so the
answer may miss the hash of a handler that stands between the two
(`getHashes_misses_hash`); it never does when no handler stands there at the
moment of the answer (`getHashes_answer_eq_xorAll`).
-/
import BcosScheduler.CommitStatus
import Mathlib.Data.Finset.Fold
import Mathlib.Data.Fintype.Basic
import Mathlib.Logic.Relation
import Mathlib.Tactic.FinCases

namespace BcosScheduler

variable {n : Nat}

/-- How far the reply handler of an executor is. -/
inductive HashStage
  /-- No reply yet. -/
  | asked
  /-- `++status->success` done. -/
  | counted (hash : H256)
  /-- `*totalHash ^= hash` done. -/
  | xored (hash : H256)
  /-- `++status->failed` done. -/
  | failed
  /-- `checkAndCommit` done, after a good or a bad reply. -/
  | checked (ok : Bool)
  deriving DecidableEq, Repr

namespace HashStage

/-- The reply that was counted. -/
def reply : HashStage → Option Bool
  | asked => none
  | counted _ | xored _ => some true
  | failed => some false
  | checked ok => some ok

/-- The hash is in `totalHash`. -/
def inTotal : HashStage → Bool
  | xored _ | checked true => true
  | _ => false

end HashStage

/-- State of one `batchGetHashes` over `n` executors.  `answers` are the calls
of its callback, in order. -/
structure GetHashes (n : Nat) where
  status : CommitStatus := { total := n }
  totalHash : H256 := 0
  stage : Fin n → HashStage := fun _ => .asked
  answers : List (Except Error H256) := []

namespace GetHashes

/-- First step of a reply handler. -/
def countReply (s : GetHashes n) (i : Fin n) (reply : Except Error H256) : GetHashes n :=
  match reply with
  | .ok hash => { s with status := s.status.count true
                         stage := Function.update s.stage i (.counted hash) }
  | .error _ => { s with status := s.status.count false
                         stage := Function.update s.stage i .failed }

/-- Second step of a good reply, under the mutex. -/
def xorHash (s : GetHashes n) (i : Fin n) (hash : H256) : GetHashes n :=
  { s with totalHash := s.totalHash ^^^ hash, stage := Function.update s.stage i (.xored hash) }

/-- What `checkAndCommit` hands to the callback, if anything. -/
def decision (number : BlockNumber) (s : GetHashes n) : List (Except Error H256) :=
  if s.status.full then
    if 0 < s.status.failed then
      [.error (SchedulerError.CommitError.error
        ("Commit block:" ++ toString number ++ " with errors! " ++ toString s.status.failed))]
    else [.ok s.totalHash]
  else []

/-- Last step of a reply handler: `checkAndCommit`. -/
def checkAndCommit (number : BlockNumber) (s : GetHashes n) (i : Fin n) (ok : Bool) :
    GetHashes n :=
  { s with stage := Function.update s.stage i (.checked ok)
           answers := s.answers ++ s.decision number }

/-- The steps of the reply handlers. -/
inductive Act (n : Nat)
  | count (i : Fin n)
  | xor (i : Fin n)
  | check (i : Fin n)

section Run

variable (number : BlockNumber) (reply : Fin n → Except Error H256)

/-- One step of one reply handler, when executor `i` answers `reply i`. -/
inductive Step : GetHashes n → Act n → GetHashes n → Prop
  | count {s : GetHashes n} {i : Fin n} :
      s.stage i = .asked → Step s (.count i) (s.countReply i (reply i))
  | xor {s : GetHashes n} {i : Fin n} {hash : H256} :
      s.stage i = .counted hash → Step s (.xor i) (s.xorHash i hash)
  | checkGood {s : GetHashes n} {i : Fin n} {hash : H256} :
      s.stage i = .xored hash → Step s (.check i) (s.checkAndCommit number i true)
  | checkFailed {s : GetHashes n} {i : Fin n} :
      s.stage i = .failed → Step s (.check i) (s.checkAndCommit number i false)

/-- Any interleaving of the handlers. -/
def Run : GetHashes n → GetHashes n → Prop :=
  Relation.ReflTransGen fun s s' => ∃ a, Step number reply s a s'

/-- If the counters are full of successes, no handler stands between its
increment and its XOR. -/
def XorsDone (s : GetHashes n) : Prop :=
  s.status.full = true → s.status.failed = 0 → ∀ i hash, s.stage i ≠ .counted hash

/-- An interleaving in which every `checkAndCommit` finds the XORs done. -/
def CleanRun : GetHashes n → GetHashes n → Prop :=
  Relation.ReflTransGen fun s s' =>
    ∃ a, Step number reply s a s' ∧ ((∃ i, a = .check i) → s.XorsDone)

end Run

/-- XOR of the hashes of a set of executors; a failed one counts as zero. -/
def xorOver (reply : Fin n → Except Error H256) (S : Finset (Fin n)) : H256 :=
  S.fold (· ^^^ ·) 0 fun i => (reply i).toOption.getD 0

/-- XOR of the hashes of all executors. -/
def xorAll (reply : Fin n → Except Error H256) : H256 := xorOver reply Finset.univ

/-! ### Invariant -/

/-- The executors whose hash is in `totalHash`. -/
def inTotalSet (stage : Fin n → HashStage) : Finset (Fin n) :=
  Finset.univ.filter fun i => (stage i).inTotal

theorem mem_inTotalSet {stage : Fin n → HashStage} {i : Fin n} :
    i ∈ inTotalSet stage ↔ (stage i).inTotal = true := by
  rw [inTotalSet, Finset.mem_filter, and_iff_right (Finset.mem_univ i)]

/-- The stages agree with the replies, the counters with the stages, and
`totalHash` with the handlers that are past their XOR. -/
structure Inv (reply : Fin n → Except Error H256) (s : GetHashes n) : Prop where
  counts : s.status.Counts fun i => (s.stage i).reply
  hash : ∀ i h, (s.stage i = .counted h ∨ s.stage i = .xored h) → reply i = .ok h
  total : s.totalHash = xorOver reply (inTotalSet s.stage)

variable {number : BlockNumber} {reply : Fin n → Except Error H256} {s s' : GetHashes n}

theorem Inv.init : Inv reply ({} : GetHashes n) where
  counts := by
    have h := CommitStatus.Counts.init (P := Fin n)
    rwa [Fintype.card_fin] at h
  hash := by simp
  total := by
    have hempty : inTotalSet (fun _ : Fin n => HashStage.asked) = ∅ :=
      Finset.eq_empty_of_forall_notMem fun i hi => by cases mem_inTotalSet.mp hi
    rw [hempty]
    rfl

/-- Moving handler `i` to a stage with the same counted reply. -/
theorem reply_update_of_eq {i : Fin n} {st : HashStage} (h : (s.stage i).reply = st.reply) :
    (fun j => (Function.update s.stage i st j).reply) = fun j => (s.stage j).reply := by
  funext j
  by_cases hj : j = i
  · subst hj
    simp [h]
  · simp [hj]

/-- Counting a reply of handler `i`. -/
theorem reply_update {i : Fin n} {st : HashStage} {b : Bool} (h : st.reply = some b) :
    (fun j => (Function.update s.stage i st j).reply)
      = Function.update (fun j => (s.stage j).reply) i (some b) := by
  funext j
  by_cases hj : j = i
  · subst hj
    simp [h]
  · simp [hj]

/-- Moving handler `i` to a stage with its hash in `totalHash` as before. -/
theorem inTotal_update_of_eq {i : Fin n} {st : HashStage}
    (h : (s.stage i).inTotal = st.inTotal) :
    inTotalSet (Function.update s.stage i st) = inTotalSet s.stage := by
  ext j
  rw [mem_inTotalSet, mem_inTotalSet]
  by_cases hj : j = i
  · rw [hj, Function.update_self, h]
  · rw [Function.update_of_ne hj]

theorem Inv.countReply (h : Inv reply s) {i : Fin n} (hi : s.stage i = .asked) :
    Inv reply (s.countReply i (reply i)) := by
  have hnone : (s.stage i).reply = none := by rw [hi]; rfl
  rcases hr : reply i with e | hash
  · refine ⟨?_, fun j k hj => ?_, ?_⟩
    · simp only [GetHashes.countReply]
      rw [reply_update (b := false) rfl]
      exact h.counts.count hnone false
    · by_cases hji : j = i
      · subst hji
        simp [GetHashes.countReply] at hj
      · simp only [GetHashes.countReply, Function.update_of_ne hji] at hj
        exact h.hash j k hj
    · exact h.total.trans (congrArg _ (inTotal_update_of_eq (by rw [hi]; rfl)).symm)
  · refine ⟨?_, fun j k hj => ?_, ?_⟩
    · simp only [GetHashes.countReply]
      rw [reply_update (b := true) rfl]
      exact h.counts.count hnone true
    · by_cases hji : j = i
      · subst hji
        simp only [GetHashes.countReply, Function.update_self, HashStage.counted.injEq,
          reduceCtorEq, or_false] at hj
        rw [hr, hj]
      · simp only [GetHashes.countReply, Function.update_of_ne hji] at hj
        exact h.hash j k hj
    · exact h.total.trans (congrArg _ (inTotal_update_of_eq (by rw [hi]; rfl)).symm)

theorem Inv.xorHash (h : Inv reply s) {i : Fin n} {hash : H256}
    (hi : s.stage i = .counted hash) : Inv reply (s.xorHash i hash) := by
  have hr : reply i = .ok hash := h.hash i hash (Or.inl hi)
  refine ⟨?_, fun j k hj => ?_, ?_⟩
  · simp only [GetHashes.xorHash]
    rw [reply_update_of_eq (by rw [hi]; rfl)]
    exact h.counts
  · by_cases hji : j = i
    · subst hji
      simp only [GetHashes.xorHash, Function.update_self, HashStage.xored.injEq,
        reduceCtorEq, false_or] at hj
      rw [hr, hj]
    · simp only [GetHashes.xorHash, Function.update_of_ne hji] at hj
      exact h.hash j k hj
  · -- handler `i` joins the set, and its hash joins the total
    have hins : inTotalSet (s.xorHash i hash).stage = insert i (inTotalSet s.stage) := by
      ext j
      rw [Finset.mem_insert, mem_inTotalSet, mem_inTotalSet]
      show (Function.update s.stage i (.xored hash) j).inTotal = true ↔ _
      by_cases hji : j = i
      · rw [hji, Function.update_self]
        exact ⟨fun _ => Or.inl rfl, fun _ => rfl⟩
      · rw [Function.update_of_ne hji, or_iff_right hji]
    have hnot : i ∉ inTotalSet s.stage := by
      rw [mem_inTotalSet, hi]
      exact Bool.false_ne_true
    rw [hins, xorOver, Finset.fold_insert hnot, hr]
    show s.totalHash ^^^ hash = hash ^^^ xorOver reply (inTotalSet s.stage)
    rw [h.total, BitVec.xor_comm]

theorem Inv.checkAndCommit (h : Inv reply s) {i : Fin n} {ok : Bool}
    (hreply : (s.stage i).reply = some ok) (hin : (s.stage i).inTotal = ok) :
    Inv reply (s.checkAndCommit number i ok) := by
  refine ⟨?_, fun j k hj => ?_, ?_⟩
  · simp only [GetHashes.checkAndCommit]
    rw [reply_update_of_eq (by rw [hreply]; rfl)]
    exact h.counts
  · by_cases hji : j = i
    · subst hji
      simp [GetHashes.checkAndCommit] at hj
    · simp only [GetHashes.checkAndCommit, Function.update_of_ne hji] at hj
      exact h.hash j k hj
  · refine h.total.trans (congrArg _ (inTotal_update_of_eq ?_).symm)
    rw [hin]
    cases ok <;> rfl

theorem Step.inv {a : Act n} (hs : Step number reply s a s') (h : Inv reply s) :
    Inv reply s' := by
  cases hs with
  | count hi => exact h.countReply hi
  | xor hi => exact h.xorHash hi
  | checkGood hi => exact h.checkAndCommit (by rw [hi]; rfl) (by rw [hi]; rfl)
  | checkFailed hi => exact h.checkAndCommit (by rw [hi]; rfl) (by rw [hi]; rfl)

/-! ### The answer -/

/-- With the counters full of successes and all XORs done, `totalHash` covers
every executor. -/
theorem Inv.totalHash_eq (h : Inv reply s) (hdone : s.XorsDone)
    (hfull : s.status.full = true) (hfailed : s.status.failed = 0) :
    s.totalHash = xorAll reply := by
  have hall : ∀ i, (s.stage i).inTotal = true := by
    intro i
    have hreplied := h.counts.full_iff.mp hfull i
    have hgood : (s.stage i).reply ≠ some false := by
      intro hbad
      have := h.counts.failed_pos_iff.mpr ⟨i, hbad⟩
      omega
    -- of the stages with a good reply only `counted` is not in the total yet
    rcases hst : s.stage i with _ | hash | _ | _ | (_ | _)
    · simp [hst, HashStage.reply] at hreplied
    · exact absurd hst (hdone hfull hfailed i hash)
    · rfl
    · simp [hst, HashStage.reply] at hgood
    · simp [hst, HashStage.reply] at hgood
    · rfl
  rw [h.total, inTotalSet, Finset.filter_true_of_mem fun i _ => hall i]
  rfl

/-- Every hash answered so far is the XOR over all executors. -/
def AnswersCover (reply : Fin n → Except Error H256) (s : GetHashes n) : Prop :=
  ∀ hash, .ok hash ∈ s.answers → hash = xorAll reply

theorem Inv.decision_cover (h : Inv reply s) (hdone : s.XorsDone) {hash : H256}
    (hmem : .ok hash ∈ s.decision number) : hash = xorAll reply := by
  unfold decision at hmem
  split_ifs at hmem with hfull hfailed
  · simp at hmem
  · simp only [List.mem_singleton, Except.ok.injEq] at hmem
    rw [hmem]
    exact h.totalHash_eq hdone hfull (by omega)
  · simp at hmem

/-- **The state root covers every executor** in every interleaving in which no
handler stands between its increment and its XOR when a `checkAndCommit`
finds the counters full. -/
theorem getHashes_answer_eq_xorAll (hrun : CleanRun number reply ({} : GetHashes n) s) :
    ∀ hash, .ok hash ∈ s.answers → hash = xorAll reply := by
  have main : Inv reply s ∧ AnswersCover reply s := by
    induction hrun with
    | refl => exact ⟨Inv.init, fun hash h => by simp at h⟩
    | tail _ hstep ih =>
        obtain ⟨a, hs, hclean⟩ := hstep
        obtain ⟨hinv, hcover⟩ := ih
        refine ⟨hs.inv hinv, ?_⟩
        -- only `checkAndCommit` adds an answer
        cases hs with
        | @count i hi =>
            intro hash hmem
            rcases hr : reply i with e | h <;> rw [hr] at hmem <;> exact hcover hash hmem
        | xor hi => exact hcover
        | checkGood hi =>
            intro hash hmem
            rcases List.mem_append.mp hmem with hmem | hmem
            · exact hcover hash hmem
            · exact hinv.decision_cover (hclean ⟨_, rfl⟩) hmem
        | checkFailed hi =>
            intro hash hmem
            rcases List.mem_append.mp hmem with hmem | hmem
            · exact hcover hash hmem
            · exact hinv.decision_cover (hclean ⟨_, rfl⟩) hmem
  exact main.2

/-- The replies of two executors with hashes 1 and 2. -/
def twoHashes : Fin 2 → Except Error H256 := fun i => .ok (if i = 0 then 1 else 2)

/-- One handler after the other: the state root of `twoHashes` is 3. -/
theorem getHashes_answer_two :
    ∃ s : GetHashes 2, CleanRun 7 twoHashes {} s ∧ s.answers = [.ok 3] ∧
      ∀ hash, .ok hash ∈ s.answers → hash = xorAll twoHashes := by
  let s₁ : GetHashes 2 := ({} : GetHashes 2).countReply 0 (twoHashes 0)
  let s₂ := s₁.xorHash 0 1
  let s₃ := s₂.checkAndCommit 7 0 true
  let s₄ := s₃.countReply 1 (twoHashes 1)
  let s₅ := s₄.xorHash 1 2
  let s₆ := s₅.checkAndCommit 7 1 true
  have hrun : CleanRun 7 twoHashes {} s₆ := by
    refine ((((((Relation.ReflTransGen.refl).tail (b := {}) (c := s₁) ?_).tail (c := s₂) ?_).tail
      (c := s₃) ?_).tail (c := s₄) ?_).tail (c := s₅) ?_).tail ?_
    · exact ⟨.count 0, .count rfl, by simp⟩
    · exact ⟨.xor 0, .xor rfl, by simp⟩
    · exact ⟨.check 0, .checkGood rfl, fun _ hfull => by cases hfull⟩
    · exact ⟨.count 1, .count rfl, by simp⟩
    · exact ⟨.xor 1, .xor rfl, by simp⟩
    · refine ⟨.check 1, .checkGood rfl, fun _ _ _ i => ?_⟩
      fin_cases i
      · exact fun hash h => by cases h
      · exact fun hash h => by cases h
  exact ⟨s₆, hrun, by decide, getHashes_answer_eq_xorAll hrun⟩

/-- With two executors, a handler that has incremented `success` but not yet
XORed its hash is missing from the answer: the other handler finds the
counters full and answers 2, where the XOR of both hashes is 3. -/
theorem getHashes_misses_hash :
    ¬ ∀ (n : Nat) (number : BlockNumber) (reply : Fin n → Except Error H256) (s : GetHashes n),
      1 ≤ n → Run number reply {} s → ∀ hash, .ok hash ∈ s.answers → hash = xorAll reply := by
  intro hclaim
  let s₁ : GetHashes 2 := ({} : GetHashes 2).countReply 0 (twoHashes 0)
  let s₂ := s₁.countReply 1 (twoHashes 1)
  let s₃ := s₂.xorHash 1 2
  let s₄ := s₃.checkAndCommit 7 1 true
  have hrun : Run 7 twoHashes {} s₄ := by
    refine ((((Relation.ReflTransGen.refl).tail (b := {}) (c := s₁) ?_).tail (c := s₂) ?_).tail
      (c := s₃) ?_).tail ?_
    · exact ⟨.count 0, .count rfl⟩
    · exact ⟨.count 1, .count rfl⟩
    · exact ⟨.xor 1, .xor rfl⟩
    · exact ⟨.check 1, .checkGood rfl⟩
  have hwrong := hclaim 2 7 twoHashes s₄ (by decide) hrun 2 (by decide)
  exact absurd hwrong (by decide)

end GetHashes

end BcosScheduler
