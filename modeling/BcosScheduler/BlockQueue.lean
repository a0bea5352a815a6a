/-
BcosScheduler/BlockQueue.lean

The queue `m_blocks` along a run of the scheduler.

Its entries carry consecutive numbers, the executing block is the last entry
and the committing block the first one (`QueueInv`).  From this follow two
things about failed requests.

An execution that fails leaves its entry behind, without a result, so the
same number is never executed again (`executeBlock_error_leaves_entry`).

A commit whose ledger query fails leaves its entry behind, too, and can be
made a second time.  Steps that are clean, without such a failure, without a
commit that fails after the storage committed, and without a restart below a
committed number, keep every number from being committed twice (`CommitInv`).
-/
import BcosScheduler.Scheduler
import Mathlib.Data.List.Chain

namespace BcosScheduler

namespace Scheduler

variable {s s' : Scheduler}

/-! ### Consecutive numbers -/

/-- The numbers of the entries from front to back are consecutive. -/
def Consecutive (bs : List QueuedBlock) : Prop :=
  bs.IsChain fun a b => b.number = a.number + 1

theorem Consecutive.tail {b : QueuedBlock} {bs : List QueuedBlock} (h : Consecutive (b :: bs)) :
    Consecutive bs :=
  List.IsChain.tail h

/-- The front has the least number. -/
theorem Consecutive.front_lt {front : QueuedBlock} {bs : List QueuedBlock}
    (h : Consecutive (front :: bs)) : ∀ b ∈ bs, front.number < b.number := by
  induction bs generalizing front with
  | nil => simp
  | cons c cs ih =>
      obtain ⟨hnext, hcs⟩ := List.isChain_cons_cons.mp h
      have hlt : front.number < c.number := by
        rw [hnext]
        exact lt_add_one front.number
      intro b hb
      rcases List.mem_cons.mp hb with rfl | hb
      · exact hlt
      · exact hlt.trans (ih hcs b hb)

/-- The back has the greatest number. -/
theorem Consecutive.lt_back {back : QueuedBlock} {bs : List QueuedBlock}
    (h : Consecutive (bs ++ [back])) : ∀ b ∈ bs, b.number < back.number := by
  induction bs with
  | nil => simp
  | cons c cs ih =>
      intro b hb
      rcases List.mem_cons.mp hb with rfl | hb
      · exact h.front_lt back (by simp)
      · exact ih h.tail b hb

/-- The number determines the entry. -/
theorem Consecutive.eq_of_number {bs : List QueuedBlock} (h : Consecutive bs)
    {a b : QueuedBlock} (ha : a ∈ bs) (hb : b ∈ bs) (hab : a.number = b.number) : a = b := by
  induction bs with
  | nil => cases ha
  | cons c cs ih =>
      rcases List.mem_cons.mp ha with hac | ha <;> rcases List.mem_cons.mp hb with hbc | hb
      · exact hac.trans hbc.symm
      · exact absurd (hac ▸ hab) (h.front_lt b hb).ne
      · exact absurd (hbc ▸ hab) (h.front_lt a ha).ne'
      · exact ih h.tail ha hb

theorem Consecutive.append {bs : List QueuedBlock} (h : Consecutive bs) {c : QueuedBlock}
    (hc : ∀ back, bs.getLast? = some back → c.number = back.number + 1) :
    Consecutive (bs ++ [c]) := by
  refine List.isChain_append.mpr ⟨h, List.isChain_singleton _, fun back hback d hd => ?_⟩
  obtain rfl : c = d := by simpa using hd
  exact hc back hback

/-- Writing results keeps the numbers. -/
theorem Consecutive.map {bs : List QueuedBlock} (h : Consecutive bs)
    {f : QueuedBlock → QueuedBlock} (hf : ∀ b, (f b).number = b.number) :
    Consecutive (bs.map f) := by
  rw [Consecutive, List.isChain_map]
  simp only [hf]
  exact h

/-! ### Queue invariant -/

/-- The entry whose commit is under way, if any. -/
def CommitStage.entry : CommitStage → Option (Nat × BlockNumber)
  | .committing id number | .querying id number | .notifying id number => some (id, number)
  | _ => none

structure QueueInv (s : Scheduler) : Prop where
  consecutive : Consecutive s.blocks
  ids : (s.blocks.map QueuedBlock.id).Nodup
  idsLt : ∀ b ∈ s.blocks, b.id < s.nextID
  /-- The executing entry is the back and has no result. -/
  running : ∀ id number, s.execute = .running id number →
    ∃ bs, s.blocks = bs ++ [{ id := id, number := number }]
  /-- No entry is beyond a block that was just executed. -/
  finished : ∀ id header, s.execute = .finished id header →
    ∀ b ∈ s.blocks, b.number ≤ header.number
  /-- The committing entry is the front and has a result. -/
  committing : ∀ id number, CommitStage.entry s.commit = some (id, number) →
    ∃ b bs, s.blocks = b :: bs ∧ b.id = id ∧ b.number = number ∧ b.result ≠ none

theorem QueueInv.init : QueueInv {} where
  consecutive := List.isChain_nil
  ids := List.nodup_nil
  idsLt := by simp
  running := by simp
  finished := by simp
  committing := by simp [CommitStage.entry]

/-- The invariant reads only the queue and the stages. -/
theorem QueueInv.mono (h : QueueInv s) (hblocks : s'.blocks = s.blocks)
    (hnext : s'.nextID = s.nextID)
    (hexecute : s'.execute = s.execute ∨ s'.execute = .free)
    (hcommit : ∀ p, CommitStage.entry s'.commit = some p → CommitStage.entry s.commit = some p) :
    QueueInv s' where
  consecutive := hblocks ▸ h.consecutive
  ids := hblocks ▸ h.ids
  idsLt := by rw [hblocks, hnext]; exact h.idsLt
  running := by
    intro id number he
    rw [hblocks]
    rcases hexecute with hsame | hfree
    · exact h.running id number (hsame ▸ he)
    · rw [hfree] at he
      cases he
  finished := by
    intro id header he
    rw [hblocks]
    rcases hexecute with hsame | hfree
    · exact h.finished id header (hsame ▸ he)
    · rw [hfree] at he
      cases he
  committing := by
    intro id number he
    rw [hblocks]
    exact h.committing id number (hcommit _ he)

theorem QueueInv.enqueue (h : QueueInv s) {number : BlockNumber}
    (hback : ∀ back, s.blocks.getLast? = some back → number = back.number + 1) :
    QueueInv (s.enqueue number) where
  consecutive := h.consecutive.append hback
  ids := by
    simp only [Scheduler.enqueue, List.map_append, List.map_cons, List.map_nil]
    apply List.Nodup.append h.ids (List.nodup_singleton _)
    intro i hi hj
    obtain ⟨b, hb, rfl⟩ := List.mem_map.mp hi
    exact (h.idsLt b hb).ne (List.mem_singleton.mp hj)
  idsLt := by
    intro b hb
    rcases List.mem_append.mp hb with hb | hb
    · exact (h.idsLt b hb).trans (Nat.lt_succ_self _)
    · rw [List.mem_singleton.mp hb]
      exact Nat.lt_succ_self _
  running := by
    rintro id number' he
    obtain ⟨rfl, rfl⟩ := ExecuteStage.running.inj he
    exact ⟨s.blocks, rfl⟩
  finished := by
    intro id header he
    cases he
  committing := by
    intro id number' he
    obtain ⟨b, bs, hb, hrest⟩ := h.committing id number' he
    exact ⟨b, bs ++ [{ id := s.nextID, number := number }],
      by simp [Scheduler.enqueue, hb], hrest⟩

/-- What `executeBlock` can do: answer, fail its search, or enqueue a block
beyond the queue. -/
theorem executeBlock_cases (s : Scheduler) (number : BlockNumber) :
    (∃ a, s.executeBlock number = s.answer a) ∨
    s.executeBlock number = { s with fault := some .searchPastEnd } ∨
    (s.executeBlock number = s.enqueue number ∧ s.execute = .free ∧
      (∀ back, s.blocks.getLast? = some back → number = back.number + 1) ∧
      (s.blocks = [] →
        ¬ (s.lastExecutedBlockNumber ≠ 0 ∧ number ≤ s.lastExecutedBlockNumber))) := by
  -- the splits follow the source: mutex, empty queue, range of the queue, next number
  unfold executeBlock
  split
  next hfree =>
    split
    next front back hfront hback =>
      have hne : s.blocks ≠ [] := fun hnil => by simp [hnil] at hfront
      split
      next hin =>
        unfold answerExecuted
        split
        · exact Or.inl ⟨_, rfl⟩
        · exact Or.inr (Or.inl rfl)
      next hin =>
        split
        next hnext => exact Or.inl ⟨_, rfl⟩
        next hnext =>
          refine Or.inr (Or.inr ⟨rfl, hfree, fun back' hback' => ?_, fun hnil => absurd hnil hne⟩)
          rw [hback] at hback'
          cases hback'
          exact sub_eq_iff_eq_add'.mp (not_not.mp hnext)
    next hnone =>
      have hnil : ∀ back, s.blocks.getLast? ≠ some back := by
        intro back hback
        rcases hbs : s.blocks with _ | ⟨front, bs⟩
        · simp [hbs] at hback
        · exact hnone front back (by simp [hbs]) hback
      split
      next hlast => exact Or.inl ⟨_, rfl⟩
      next hlast =>
        exact Or.inr (Or.inr ⟨rfl, hfree, fun back hback => absurd hback (hnil back),
          fun _ => hlast⟩)
  next hbusy => exact Or.inl ⟨_, rfl⟩

theorem QueueInv.executeBlock (h : QueueInv s) (number : BlockNumber) :
    QueueInv (s.executeBlock number) := by
  rcases executeBlock_cases s number with ⟨a, ha⟩ | hfault | ⟨henq, -, hback, -⟩
  · rw [ha]
    exact h.mono rfl rfl (Or.inl rfl) fun _ => id
  · rw [hfault]
    exact h.mono rfl rfl (Or.inl rfl) fun _ => id
  · rw [henq]
    exact h.enqueue hback

/-- Writing the result of the executing block. -/
theorem QueueInv.setResult (h : QueueInv s) {id : Nat} {header : BlockHeader}
    (hrunning : s.execute = .running id header.number) : QueueInv (s.setResult id header) := by
  have hid : ∀ b : QueuedBlock,
      (if b.id = id then { b with result := some header } else b).id = b.id := by
    intro b
    split_ifs <;> rfl
  have hnumber : ∀ b : QueuedBlock,
      (if b.id = id then { b with result := some header } else b).number = b.number := by
    intro b
    split_ifs <;> rfl
  -- a result is the only thing that changes; the executing entry is the back
  obtain ⟨bs, hbs⟩ := h.running _ _ hrunning
  refine ⟨h.consecutive.map hnumber, ?_, ?_, ?_, ?_, ?_⟩
  · simp only [Scheduler.setResult, List.map_map, Function.comp_def, hid]
    exact h.ids
  · intro b hb
    obtain ⟨c, hc, rfl⟩ := List.mem_map.mp hb
    rw [hid]
    exact h.idsLt c hc
  · intro id' number he
    cases he
  · intro id' header' he
    cases he
    intro b hb
    obtain ⟨c, hc, rfl⟩ := List.mem_map.mp hb
    rw [hnumber]
    have hcons := h.consecutive
    rw [hbs] at hc hcons
    rcases List.mem_append.mp hc with hc | hc
    · exact (hcons.lt_back c hc).le
    · rw [List.mem_singleton.mp hc]
  · intro id' number he
    obtain ⟨b, bs', hb, rfl, rfl, hresult⟩ := h.committing id' number he
    refine ⟨_, _, by simp only [Scheduler.setResult, hb, List.map_cons]; rfl, hid b, hnumber b, ?_⟩
    split_ifs
    · exact Option.some_ne_none header
    · exact hresult

theorem popFront_cons {b : QueuedBlock} {bs : List QueuedBlock} (hbs : s.blocks = b :: bs)
    (number : BlockNumber) (error : Option Error) :
    s.popFront number error = { s with blocks := bs, commit := .popped number error } := by
  simp only [Scheduler.popFront, hbs]

theorem entry_popFront (s : Scheduler) (number : BlockNumber) (error : Option Error) :
    CommitStage.entry (s.popFront number error).commit = none := by
  rcases hbs : s.blocks with _ | ⟨b, bs⟩
  · simp only [Scheduler.popFront, hbs]
    rfl
  · rw [popFront_cons hbs]
    rfl

/-- Popping the committed front, which is not the executing block. -/
theorem QueueInv.popFront (h : QueueInv s) {id : Nat} {number : BlockNumber}
    (hentry : CommitStage.entry s.commit = some (id, number)) (error : Option Error) :
    QueueInv (s.popFront number error) := by
  obtain ⟨b, bs, hbs, -, -, hresult⟩ := h.committing _ _ hentry
  rw [popFront_cons hbs]
  have hsub : ∀ c ∈ bs, c ∈ s.blocks := fun c hc => by simp [hbs, hc]
  refine ⟨?_, ?_, fun c hc => h.idsLt c (hsub c hc), ?_,
    fun id' header he c hc => h.finished id' header he c (hsub c hc), ?_⟩
  · have hcons := h.consecutive
    rw [hbs] at hcons
    exact hcons.tail
  · have hids := h.ids
    rw [hbs] at hids
    exact (List.nodup_cons.mp hids).2
  · intro id' number' he
    obtain ⟨cs, hcs⟩ := h.running id' number' he
    rw [hbs] at hcs
    rcases cs with _ | ⟨c, cs⟩
    · -- the executing block has no result, the front has one
      simp only [List.nil_append, List.cons.injEq] at hcs
      rw [hcs.1] at hresult
      exact absurd rfl hresult
    · simp only [List.cons_append, List.cons.injEq] at hcs
      exact ⟨cs, hcs.2⟩
  · intro id' number' he
    cases he

/-- What the tests of `commitBlock` can do: refuse, or start the commit of an
executed front. -/
theorem commitTest_cases (s : Scheduler) (number : BlockNumber) :
    (∃ error, s.commitTest number = s.refuse number error) ∨
    ∃ front bs, s.blocks = front :: bs ∧ front.result ≠ none ∧
      s.commitTest number = { s with commit := .committing front.id front.number } := by
  unfold commitTest
  split
  next => exact Or.inl ⟨_, rfl⟩
  next front bs hbs =>
    split
    next => exact Or.inl ⟨_, rfl⟩
    next hresult =>
      split
      next => exact Or.inl ⟨_, rfl⟩
      next => exact Or.inr ⟨front, bs, hbs, hresult, rfl⟩

/-- The busy branch of `commitBlock` keeps everything but the calls and answers. -/
theorem commitBusy_cases (s : Scheduler) (number : BlockNumber) :
    ∃ answers fault, s.commitBusy number =
      { s with busy := s.busy.erase number, answers := answers, fault := fault } := by
  unfold commitBusy
  split
  · exact ⟨_, _, rfl⟩
  · exact ⟨_, _, rfl⟩

theorem QueueInv.commitTest (h : QueueInv s) (number : BlockNumber) :
    QueueInv (s.commitTest number) := by
  rcases commitTest_cases s number with ⟨error, heq⟩ | ⟨front, bs, hbs, hresult, heq⟩
  · rw [heq]
    exact h.mono rfl rfl (Or.inl rfl) fun p hp => by cases hp
  · rw [heq]
    exact ⟨h.consecutive, h.ids, h.idsLt, h.running, h.finished, fun id number' he => by
      cases he
      exact ⟨front, bs, hbs, rfl, rfl, hresult⟩⟩

theorem Step.queueInv {e : Event} (hstep : Step s e s') (h : QueueInv s) : QueueInv s' := by
  cases hstep with
  | executeBlock number => exact h.executeBlock number
  | executeFailed hrunning => exact h.mono rfl rfl (Or.inr rfl) fun _ => id
  | setResult stateRoot gasUsed hrunning => exact h.setResult hrunning
  | executeSucceeded hfinished => exact h.mono rfl rfl (Or.inr rfl) fun _ => id
  | commitBlock number =>
      unfold Scheduler.commitBlock
      split_ifs
      · exact h.mono rfl rfl (Or.inl rfl) fun p hp => by cases hp
      · exact h.mono rfl rfl (Or.inl rfl) fun _ => id
  | @commitBusy number hmem =>
      obtain ⟨answers, fault, heq⟩ := commitBusy_cases s number
      rw [heq]
      exact h.mono rfl rfl (Or.inl rfl) fun _ => id
  | commitTest htesting => exact h.commitTest _
  | commitRefused hrefusing => exact h.mono rfl rfl (Or.inl rfl) fun p hp => by cases hp
  | commitDone result hcommitting =>
      cases result with
      | committed =>
          exact h.mono rfl rfl (Or.inl rfl) fun p hp => by rw [hcommitting]; exact hp
      | failed storage => exact h.mono rfl rfl (Or.inl rfl) fun p hp => by cases hp
      | rolledBack => exact h.mono rfl rfl (Or.inl rfl) fun p hp => by cases hp
  | @ledgerConfigDone id number ok hquerying =>
      unfold Scheduler.ledgerConfigDone
      split_ifs
      · exact h.mono rfl rfl (Or.inl rfl) fun p hp => by rw [hquerying]; exact hp
      · have hentry : CommitStage.entry s.commit = some (id, number) := by rw [hquerying]; rfl
        exact h.popFront hentry none
      · exact h.mono rfl rfl (Or.inl rfl) fun p hp => by cases hp
  | ledgerConfigLost hquerying => exact h.mono rfl rfl (Or.inl rfl) fun p hp => by cases hp
  | notified error hnotifying => exact h.popFront (by rw [hnotifying]; rfl) error
  | commitAnswered hpopped => exact h.mono rfl rfl (Or.inl rfl) fun p hp => by cases hp
  | registerTransactionNotifier => exact h.mono rfl rfl (Or.inl rfl) fun _ => id

theorem Steps.queueInv (hsteps : Steps s s') (h : QueueInv s) : QueueInv s' := by
  induction hsteps with
  | refl => exact h
  | tail _ hstep ih =>
      obtain ⟨e, he⟩ := hstep
      exact he.queueInv ih

theorem Reachable.queueInv (h : Reachable s) : QueueInv s := Steps.queueInv h .init

/-! ### Searching and popping the queue -/

/-- The number of an entry lies between front and back. -/
theorem Consecutive.between {bs : List QueuedBlock} (h : Consecutive bs) {b front back : QueuedBlock}
    (hb : b ∈ bs) (hfront : bs.head? = some front) (hback : bs.getLast? = some back) :
    front.number ≤ b.number ∧ b.number ≤ back.number := by
  constructor
  · obtain ⟨cs, rfl⟩ := List.head?_eq_some_iff.mp hfront
    rcases List.mem_cons.mp hb with rfl | hb
    · exact le_rfl
    · exact (h.front_lt b hb).le
  · obtain ⟨cs, rfl⟩ := List.getLast?_eq_some_iff.mp hback
    rcases List.mem_append.mp hb with hb | hb
    · exact (h.lt_back b hb).le
    · rw [List.mem_singleton.mp hb]

/-- The already-executed branch answers with the entry of the number. -/
theorem QueueInv.executeBlock_of_mem (h : QueueInv s) (hfree : s.execute = .free)
    {b : QueuedBlock} (hb : b ∈ s.blocks) :
    s.executeBlock b.number = s.answer (.execute b.number none b.result []) := by
  have hfind : s.blocks.find? (fun c => decide (c.number = b.number)) = some b := by
    rcases hf : s.blocks.find? (fun c => decide (c.number = b.number)) with _ | c
    · have hnone := List.find?_eq_none.mp hf b hb
      simp at hnone
    · have hc := List.mem_of_find?_eq_some hf
      have hnumber : c.number = b.number := by simpa using List.find?_some hf
      rw [hf, h.consecutive.eq_of_number hc hb hnumber]
  obtain ⟨front, hfront⟩ : ∃ front, s.blocks.head? = some front :=
    ⟨_, List.head?_eq_some_head (List.ne_nil_of_mem hb)⟩
  obtain ⟨back, hback⟩ : ∃ back, s.blocks.getLast? = some back :=
    ⟨_, List.getLast?_eq_some_getLast (List.ne_nil_of_mem hb)⟩
  have hin := h.consecutive.between hb hfront hback
  simp only [Scheduler.executeBlock, if_pos hfree, hfront, hback, if_pos hin, answerExecuted, hfind]

/-- Every number between front and back belongs to an entry. -/
theorem Consecutive.exists_of_between {bs : List QueuedBlock} (h : Consecutive bs)
    {front back : QueuedBlock} {number : BlockNumber} (hfront : bs.head? = some front)
    (hback : bs.getLast? = some back) (hle : front.number ≤ number) (hge : number ≤ back.number) :
    ∃ b ∈ bs, b.number = number := by
  induction bs generalizing front with
  | nil => cases hfront
  | cons c cs ih =>
      obtain rfl : c = front := Option.some.inj hfront
      rcases hle.eq_or_lt with heq | hlt
      · exact ⟨c, List.mem_cons_self, heq⟩
      · cases cs with
        | nil =>
            obtain rfl : c = back := Option.some.inj hback
            exact absurd hge (not_le.mpr hlt)
        | cons d ds =>
            obtain ⟨hnext, hds⟩ := List.isChain_cons_cons.mp h
            have hd : d.number ≤ number := by
              rw [hnext]
              exact hlt
            obtain ⟨b, hb, hnumber⟩ := ih hds rfl hback hd
            exact ⟨b, List.mem_cons_of_mem c hb, hnumber⟩

/-- A request for a number from front to back finds its entry. -/
theorem QueueInv.found (h : QueueInv s) {front back : QueuedBlock} {number : BlockNumber}
    (hfree : s.execute = .free) (hfront : s.blocks.head? = some front)
    (hback : s.blocks.getLast? = some back) (hle : front.number ≤ number)
    (hge : number ≤ back.number) :
    ∃ b ∈ s.blocks, b.number = number ∧
      s.executeBlock number = s.answer (.execute number none b.result []) := by
  obtain ⟨b, hb, rfl⟩ := h.consecutive.exists_of_between hfront hback hle hge
  exact ⟨b, hb, rfl, h.executeBlock_of_mem hfree hb⟩

/-- The step pops a block of the queue. -/
def PopsFront (s : Scheduler) : Event → Bool
  | .ledgerConfigDone ok => ok && !s.txNotifier
  | .notified _ => true
  | _ => false

/-- What is popped is the front, and it is the committed entry. -/
theorem Step.popsFront {e : Event} (hstep : Step s e s') (hpops : PopsFront s e = true) :
    (∃ p, CommitStage.entry s.commit = some p) ∧
      ∀ b bs, s.blocks = b :: bs → s'.blocks = bs := by
  cases hstep with
  | @ledgerConfigDone id number ok hquerying =>
      obtain ⟨rfl, hnotifier⟩ : ok = true ∧ s.txNotifier = false := by simpa [PopsFront] using hpops
      refine ⟨⟨(id, number), by rw [hquerying]; rfl⟩, fun b bs hbs => ?_⟩
      simp only [Scheduler.ledgerConfigDone, hnotifier, if_true, Bool.false_eq_true, if_false,
        popFront_cons hbs]
  | @notified id number error hnotifying =>
      refine ⟨⟨(id, number), by rw [hnotifying]; rfl⟩, fun b bs hbs => ?_⟩
      rw [popFront_cons hbs]
  | _ => cases hpops

/-- Only the tests of `commitBlock` start the commit of an entry. -/
theorem Step.entry_cases {e : Event} (hstep : Step s e s') {p : Nat × BlockNumber}
    (hentry : CommitStage.entry s'.commit = some p) :
    CommitStage.entry s.commit = some p ∨ e = .commitTest := by
  cases hstep with
  | executeBlock number =>
      left
      rcases executeBlock_cases s number with ⟨a, ha⟩ | hfault | ⟨henq, -⟩
      · rw [ha] at hentry; exact hentry
      · rw [hfault] at hentry; exact hentry
      · rw [henq] at hentry; exact hentry
  | executeFailed | setResult | executeSucceeded | registerTransactionNotifier =>
      exact Or.inl hentry
  | commitBlock number =>
      left
      unfold Scheduler.commitBlock at hentry
      split_ifs at hentry
      · cases hentry
      · exact hentry
  | @commitBusy number hmem =>
      obtain ⟨answers, fault, heq⟩ := commitBusy_cases s number
      rw [heq] at hentry
      exact Or.inl hentry
  | commitTest htesting => exact Or.inr rfl
  | commitDone result hcommitting =>
      cases result with
      | committed =>
          rw [hcommitting]
          exact Or.inl hentry
      | failed storage | rolledBack => cases hentry
  | ledgerConfigDone ok hquerying =>
      unfold Scheduler.ledgerConfigDone at hentry
      split_ifs at hentry
      · rw [hquerying]
        exact Or.inl hentry
      · rw [entry_popFront] at hentry
        cases hentry
      · cases hentry
  | notified error hnotifying =>
      rw [entry_popFront] at hentry
      cases hentry
  | commitRefused | ledgerConfigLost | commitAnswered => cases hentry

/-! ### A failed execution -/

/-- What a failed `executeBlock` of `number` in `s` should leave behind: the
scheduler as it was, ready to execute the number again. -/
structure Restored (s : Scheduler) (number : BlockNumber) (u : Scheduler) : Prop where
  blocks : u.blocks = s.blocks
  lastExecuted : u.lastExecutedBlockNumber = s.lastExecutedBlockNumber
  free : u.execute = .free
  results : u.execute = .free → ∀ b ∈ u.blocks, b.result ≠ none
  later : ∀ t, Steps u t → t.executeBlock number ≠ t.answer (.execute number none none [])

/-- **A failed execution is never undone.**  Whenever an accepted
`executeBlock` ends with an error, whatever happened in between, the mutex is
free but its entry stays in `m_blocks` without a result, and the next
`executeBlock` of the number is answered with that null result. -/
theorem executeBlock_error_leaves_entry {t : Scheduler} {number : BlockNumber}
    (hs : Reachable s) (haccept : s.executeBlock number = s.enqueue number)
    (hrun : Steps (s.enqueue number) t) (hrunning : t.execute = .running s.nextID number) :
    ¬ Restored s number (t.executeFailed number) ∧
    (t.executeFailed number).execute = .free ∧
    (∃ b ∈ (t.executeFailed number).blocks, b ∉ s.blocks ∧ b.number = number ∧ b.result = none) ∧
    (t.executeFailed number).executeBlock number
      = (t.executeFailed number).answer (.execute number none none []) := by
  have hinv : QueueInv s := hs.queueInv
  have hinvt : QueueInv t := hrun.queueInv (haccept ▸ hinv.executeBlock number)
  have hinvu : QueueInv (t.executeFailed number) := (Step.executeFailed hrunning).queueInv hinvt
  obtain ⟨bs, hbs⟩ := hinvt.running _ _ hrunning
  -- the entry made by the request is still the back of the queue
  have hmem : ({ id := s.nextID, number := number } : QueuedBlock)
      ∈ (t.executeFailed number).blocks := by
    show _ ∈ t.blocks
    simp [hbs]
  have hnull := hinvu.executeBlock_of_mem rfl hmem
  refine ⟨fun hrestored => hrestored.later _ .refl hnull, rfl, ⟨_, hmem, ?_, rfl, rfl⟩, hnull⟩
  exact fun hold => (hinv.idsLt _ hold).ne rfl

/-- A first execution, of block 100, that fails at once. -/
theorem executeBlock_error_leaves_entry_fresh :
    ¬ Restored {} 100 ((({} : Scheduler).enqueue 100).executeFailed 100) := by
  have haccept : ({} : Scheduler).executeBlock 100 = ({} : Scheduler).enqueue 100 := rfl
  exact (executeBlock_error_leaves_entry .refl haccept .refl rfl).1

/-- Block 100 fails on a fresh scheduler and is not undone. -/
theorem executeBlock_error_not_restored :
    ¬ ∀ (s t : Scheduler) (number : BlockNumber), Reachable s →
      s.executeBlock number = s.enqueue number → Steps (s.enqueue number) t →
      t.execute = .running s.nextID number → Restored s number (t.executeFailed number) := by
  intro hclaim
  have h := (hclaim {} (({} : Scheduler).enqueue 100) 100 .refl rfl .refl rfl).blocks
  exact absurd h (by decide)

/-! ### Committing at most once -/

/-- The entries not yet committed: all, except the front while its commit is
being finished. -/
def uncommitted (s : Scheduler) : List QueuedBlock :=
  match s.commit with
  | .querying _ _ | .notifying _ _ => s.blocks.tail
  | _ => s.blocks

/-- The greatest number executed so far. -/
def executedNumber (s : Scheduler) : BlockNumber :=
  match s.execute with
  | .finished _ header => header.number
  | _ => s.lastExecutedBlockNumber

/-- The events after which a number cannot be committed twice: a ledger query
neither fails nor is lost, a commit does not fail after the storage committed,
and an empty queue that does not know its last number is not restarted at or
below a committed one. -/
def Clean (s : Scheduler) : Event → Prop
  | .executeBlock number => s.execute = .free → s.blocks = [] →
      s.lastExecutedBlockNumber = 0 → ∀ k ∈ s.committed, k < number
  | .commitDone result => result ≠ .failed true
  | .ledgerConfigDone ok => ok = true
  | .ledgerConfigLost => False
  | _ => True

instance (s : Scheduler) (e : Event) : Decidable (s.Clean e) := by
  unfold Clean
  split <;> infer_instance

structure CommitInv (s : Scheduler) : Prop where
  queue : QueueInv s
  /-- Results and commits are not beyond the last executed number. -/
  executed : ∀ b ∈ s.blocks, b.result ≠ none → b.number ≤ s.executedNumber
  capped : ∀ k ∈ s.committed, k ≤ s.executedNumber
  /-- What is not yet committed is beyond what is. -/
  beyond : ∀ b ∈ s.uncommitted, ∀ k ∈ s.committed, k < b.number
  notBelow : ∀ b ∈ s.blocks, ∀ k ∈ s.committed, k ≤ b.number
  once : s.committed.Nodup
  storedLt : ∀ i ∈ s.stored, i < s.nextID
  unstored : ∀ b ∈ s.uncommitted, b.id ∉ s.stored

theorem CommitInv.init : CommitInv {} where
  queue := .init
  executed := by simp
  capped := by simp
  beyond := by simp
  notBelow := by simp
  once := by simp
  storedLt := by simp
  unstored := by simp

/-- The invariant reads the queue, the logs, and of the stages only which
entries are committed and how far the executions are. -/
theorem CommitInv.mono (h : CommitInv s) (hqueue : QueueInv s') (hblocks : s'.blocks = s.blocks)
    (hnext : s'.nextID = s.nextID) (hexecuted : s'.executedNumber = s.executedNumber)
    (huncommitted : s'.uncommitted = s.uncommitted) (hcommitted : s'.committed = s.committed)
    (hstored : s'.stored = s.stored) : CommitInv s' where
  queue := hqueue
  executed := by rw [hblocks, hexecuted]; exact h.executed
  capped := by rw [hcommitted, hexecuted]; exact h.capped
  beyond := by rw [huncommitted, hcommitted]; exact h.beyond
  notBelow := by rw [hblocks, hcommitted]; exact h.notBelow
  once := hcommitted ▸ h.once
  storedLt := by rw [hstored, hnext]; exact h.storedLt
  unstored := by rw [huncommitted, hstored]; exact h.unstored

/-- A free or testing commit mutex: every entry is uncommitted. -/
theorem uncommitted_eq (h : ∀ id number, s.commit ≠ .querying id number ∧
    s.commit ≠ .notifying id number) : s.uncommitted = s.blocks := by
  unfold uncommitted
  split
  next id number he => exact absurd he (h id number).1
  next id number he => exact absurd he (h id number).2
  next => rfl

theorem uncommitted_enqueue (h : QueueInv s) (number : BlockNumber) :
    (s.enqueue number).uncommitted
      = s.uncommitted ++ [{ id := s.nextID, number := number }] := by
  unfold uncommitted
  rcases hc : s.commit with _ | _ | _ | _ | ⟨id, k⟩ | ⟨id, k⟩ | _
  case querying | notifying =>
    obtain ⟨b, bs, hbs, -⟩ := h.committing id k (by rw [hc]; rfl)
    simp [enqueue, hc, hbs]
  all_goals simp [enqueue, hc]

/-- A block is accepted only beyond the committed numbers. -/
theorem CommitInv.lt_of_accepted (h : CommitInv s) {number : BlockNumber}
    (hclean : s.Clean (.executeBlock number)) (hfree : s.execute = .free)
    (hback : ∀ back, s.blocks.getLast? = some back → number = back.number + 1)
    (hlast : s.blocks = [] →
      ¬ (s.lastExecutedBlockNumber ≠ 0 ∧ number ≤ s.lastExecutedBlockNumber)) :
    ∀ k ∈ s.committed, k < number := by
  intro k hk
  -- an empty queue compares with the last executed number, else the back decides
  rcases hb : s.blocks.getLast? with _ | back
  · have hnil : s.blocks = [] := List.getLast?_eq_none_iff.mp hb
    by_cases hzero : s.lastExecutedBlockNumber = 0
    · exact hclean hfree hnil hzero k hk
    · have hcap := h.capped k hk
      simp only [executedNumber, hfree] at hcap
      exact lt_of_le_of_lt hcap (not_le.mp fun hle => hlast hnil ⟨hzero, hle⟩)
  · have hle := h.notBelow back (List.mem_of_getLast? hb) k hk
    rw [hback back hb]
    exact lt_of_le_of_lt hle (lt_add_one back.number)

theorem CommitInv.enqueue (h : CommitInv s) {number : BlockNumber} (hfree : s.execute = .free)
    (hqueue : QueueInv (s.enqueue number)) (hbeyond : ∀ k ∈ s.committed, k < number) :
    CommitInv (s.enqueue number) := by
  have hcap : (s.enqueue number).executedNumber = s.executedNumber := by
    simp [executedNumber, Scheduler.enqueue, hfree]
  refine ⟨hqueue, ?_, hcap ▸ h.capped, ?_, ?_, h.once,
    fun i hi => (h.storedLt i hi).trans (Nat.lt_succ_self _), ?_⟩
  · intro b hb hresult
    rw [hcap]
    rcases List.mem_append.mp hb with hb | hb
    · exact h.executed b hb hresult
    · rw [List.mem_singleton.mp hb] at hresult
      exact absurd rfl hresult
  · intro b hb
    rw [uncommitted_enqueue h.queue] at hb
    rcases List.mem_append.mp hb with hb | hb
    · exact h.beyond b hb
    · rw [List.mem_singleton.mp hb]
      exact hbeyond
  · intro b hb k hk
    rcases List.mem_append.mp hb with hb | hb
    · exact h.notBelow b hb k hk
    · rw [List.mem_singleton.mp hb]
      exact (hbeyond k hk).le
  · intro b hb
    rw [uncommitted_enqueue h.queue] at hb
    rcases List.mem_append.mp hb with hb | hb
    · exact h.unstored b hb
    · rw [List.mem_singleton.mp hb]
      exact fun hi => (h.storedLt _ hi).ne rfl

theorem CommitInv.executeBlock (h : CommitInv s) {number : BlockNumber}
    (hclean : s.Clean (.executeBlock number)) : CommitInv (s.executeBlock number) := by
  have hqueue := h.queue.executeBlock number
  rcases executeBlock_cases s number with ⟨a, ha⟩ | hfault | ⟨henq, hfree, hback, hlast⟩
  · rw [ha] at hqueue ⊢
    exact h.mono hqueue rfl rfl rfl rfl rfl rfl
  · rw [hfault] at hqueue ⊢
    exact h.mono hqueue rfl rfl rfl rfl rfl rfl
  · rw [henq] at hqueue ⊢
    exact h.enqueue hfree hqueue (h.lt_of_accepted hclean hfree hback hlast)

/-- Writing a result keeps the numbers and identities of what is uncommitted. -/
theorem mem_uncommitted_setResult {id : Nat} {header : BlockHeader} {b : QueuedBlock}
    (hb : b ∈ (s.setResult id header).uncommitted) :
    ∃ c ∈ s.uncommitted, b.number = c.number ∧ b.id = c.id := by
  have hmap : (s.setResult id header).uncommitted
      = s.uncommitted.map fun b => if b.id = id then { b with result := some header } else b := by
    unfold uncommitted
    rcases hc : s.commit with _ | _ | _ | _ | _ | _ | _ <;>
      simp [Scheduler.setResult, hc, List.map_tail]
  rw [hmap] at hb
  obtain ⟨c, hc, rfl⟩ := List.mem_map.mp hb
  refine ⟨c, hc, ?_, ?_⟩ <;> split_ifs <;> rfl

theorem CommitInv.setResult (h : CommitInv s) {id : Nat} {header : BlockHeader}
    (hrunning : s.execute = .running id header.number) : CommitInv (s.setResult id header) := by
  have hqueue := h.queue.setResult hrunning
  obtain ⟨bs, hbs⟩ := h.queue.running _ _ hrunning
  have hback : ∀ k ∈ s.committed, k ≤ header.number := fun k hk =>
    h.notBelow ⟨id, header.number, none⟩ (by simp [hbs]) k hk
  refine ⟨hqueue, fun b hb _ => hqueue.finished id header rfl b hb, hback, ?_, ?_, h.once,
    h.storedLt, ?_⟩
  · intro b hb k hk
    obtain ⟨c, hc, hnumber, -⟩ := mem_uncommitted_setResult hb
    rw [hnumber]
    exact h.beyond c hc k hk
  · intro b hb k hk
    obtain ⟨c, hc, rfl⟩ := List.mem_map.mp hb
    have := h.notBelow c hc k hk
    split_ifs <;> exact this
  · intro b hb
    obtain ⟨c, hc, -, hid⟩ := mem_uncommitted_setResult hb
    rw [hid]
    exact h.unstored c hc

/-- A successful `batchBlockCommit` of the front. -/
theorem CommitInv.committed (h : CommitInv s) {id : Nat} {number : BlockNumber}
    (hcommit : s.commit = .committing id number)
    (hqueue : QueueInv (s.commitDone id number .committed)) :
    CommitInv (s.commitDone id number .committed) := by
  obtain ⟨b, bs, hbs, rfl, rfl, hresult⟩ := h.queue.committing id number (by rw [hcommit]; rfl)
  have hbefore : s.uncommitted = b :: bs := by
    rw [← hbs]
    exact uncommitted_eq fun _ _ => by simp [hcommit]
  have hafter : (s.commitDone b.id b.number .committed).uncommitted = bs := by
    simp [uncommitted, commitDone, hbs]
  have hfront : ∀ c ∈ bs, b.number < c.number := by
    have hcons := h.queue.consecutive
    rw [hbs] at hcons
    exact hcons.front_lt
  -- the front was uncommitted until now, so its number is new
  have hlt : ∀ k ∈ s.committed, k < b.number := h.beyond b (by simp [hbefore])
  refine ⟨hqueue, h.executed, ?_, ?_, ?_, ?_, ?_, ?_⟩
  · intro k hk
    rcases List.mem_append.mp hk with hk | hk
    · exact h.capped k hk
    · rw [List.mem_singleton.mp hk]
      exact h.executed b (by simp [hbs]) hresult
  · intro c hc k hk
    rw [hafter] at hc
    rcases List.mem_append.mp hk with hk | hk
    · exact (hlt k hk).trans (hfront c hc)
    · rw [List.mem_singleton.mp hk]
      exact hfront c hc
  · intro c hc k hk
    rcases List.mem_append.mp hk with hk | hk
    · exact h.notBelow c hc k hk
    · rw [List.mem_singleton.mp hk]
      have hc : c ∈ s.blocks := hc
      rw [hbs] at hc
      rcases List.mem_cons.mp hc with rfl | hc
      · exact le_rfl
      · exact (hfront c hc).le
  · apply List.Nodup.append h.once (List.nodup_singleton _)
    intro k hk hk'
    exact (hlt k hk).ne (List.mem_singleton.mp hk')
  · intro i hi
    rcases List.mem_append.mp hi with hi | hi
    · exact h.storedLt i hi
    · rw [List.mem_singleton.mp hi]
      exact h.queue.idsLt b (by simp [hbs])
  · intro c hc hi
    rw [hafter] at hc
    rcases List.mem_append.mp hi with hi | hi
    · exact h.unstored c (by simp [hbefore, hc]) hi
    · have hids := h.queue.ids
      rw [hbs] at hids
      refine (List.nodup_cons.mp hids).1 (List.mem_map.mpr ⟨c, hc, ?_⟩)
      exact List.mem_singleton.mp hi

/-- Popping the front whose commit is finished. -/
theorem CommitInv.popFront (h : CommitInv s) {id : Nat} {number : BlockNumber}
    (hcommit : s.commit = .querying id number ∨ s.commit = .notifying id number)
    (error : Option Error) : CommitInv (s.popFront number error) := by
  have hentry : CommitStage.entry s.commit = some (id, number) := by
    rcases hcommit with hc | hc <;> rw [hc] <;> rfl
  have hqueue := h.queue.popFront hentry error
  obtain ⟨b, bs, hbs, -⟩ := h.queue.committing _ _ hentry
  rw [popFront_cons hbs] at hqueue ⊢
  have hsub : ∀ c ∈ bs, c ∈ s.blocks := fun c hc => by simp [hbs, hc]
  -- the popped entry was the committed one, so nothing uncommitted is lost
  have hun : s.uncommitted = bs := by
    rcases hcommit with hc | hc <;> simp [uncommitted, hc, hbs]
  refine ⟨hqueue, fun c hc => h.executed c (hsub c hc), h.capped, fun c hc => ?_,
    fun c hc => h.notBelow c (hsub c hc), h.once, h.storedLt, fun c hc => ?_⟩
  · exact h.beyond c (by rw [hun]; exact hc)
  · exact h.unstored c (by rw [hun]; exact hc)

/-- Stages before a successful commit and after the pop leave every entry
uncommitted. -/
theorem uncommitted_congr (hblocks : s'.blocks = s.blocks)
    (hs : ∀ id number, s.commit ≠ .querying id number ∧ s.commit ≠ .notifying id number)
    (hs' : ∀ id number, s'.commit ≠ .querying id number ∧ s'.commit ≠ .notifying id number) :
    s'.uncommitted = s.uncommitted := by
  rw [uncommitted_eq hs, uncommitted_eq hs', hblocks]

theorem CommitInv.commitTest (h : CommitInv s) {number : BlockNumber}
    (htesting : s.commit = .testing number) : CommitInv (s.commitTest number) := by
  have hqueue := h.queue.commitTest number
  have hold : ∀ id k, s.commit ≠ .querying id k ∧ s.commit ≠ .notifying id k := by
    simp [htesting]
  rcases commitTest_cases s number with ⟨error, heq⟩ | ⟨front, bs, -, -, heq⟩
  · rw [heq] at hqueue ⊢
    exact h.mono hqueue rfl rfl rfl (uncommitted_congr rfl hold (by simp [refuse])) rfl rfl
  · rw [heq] at hqueue ⊢
    exact h.mono hqueue rfl rfl rfl (uncommitted_congr rfl hold (by simp)) rfl rfl

theorem Step.commitInv {e : Event} (hstep : Step s e s') (hclean : s.Clean e)
    (h : CommitInv s) : CommitInv s' := by
  have hqueue := hstep.queueInv h.queue
  cases hstep with
  | executeBlock number => exact h.executeBlock hclean
  | executeFailed hrunning =>
      refine h.mono hqueue rfl rfl ?_ rfl rfl rfl
      simp [executedNumber, Scheduler.executeFailed, answer, hrunning]
  | setResult stateRoot gasUsed hrunning => exact h.setResult hrunning
  | executeSucceeded hfinished =>
      refine h.mono hqueue rfl rfl ?_ rfl rfl rfl
      simp [executedNumber, Scheduler.executeSucceeded, answer, hfinished]
  | commitBlock number =>
      unfold Scheduler.commitBlock at hqueue ⊢
      split_ifs at hqueue ⊢ with hfree
      · exact h.mono hqueue rfl rfl rfl
          (uncommitted_congr rfl (by simp [hfree]) (by simp)) rfl rfl
      · exact h.mono hqueue rfl rfl rfl rfl rfl rfl
  | @commitBusy number hmem =>
      obtain ⟨answers, fault, heq⟩ := commitBusy_cases s number
      rw [heq] at hqueue ⊢
      exact h.mono hqueue rfl rfl rfl rfl rfl rfl
  | commitTest htesting => exact h.commitTest htesting
  | commitRefused hrefusing =>
      exact h.mono hqueue rfl rfl rfl
        (uncommitted_congr rfl (by simp [hrefusing]) (by simp [refuseCommit, answer])) rfl rfl
  | commitDone result hcommitting =>
      have hold : ∀ id k, s.commit ≠ .querying id k ∧ s.commit ≠ .notifying id k := by
        simp [hcommitting]
      rcases result with _ | (_ | _) | _
      · exact h.committed hcommitting hqueue
      · exact h.mono hqueue rfl rfl rfl
          (uncommitted_congr rfl hold (by simp [Scheduler.commitDone, refuseCommit, answer]))
          rfl rfl
      -- the storage committed and an executor did not: not a clean step
      · exact absurd rfl hclean
      · exact h.mono hqueue rfl rfl rfl
          (uncommitted_congr rfl hold (by simp [Scheduler.commitDone])) rfl rfl
  | @ledgerConfigDone id number ok hquerying =>
      obtain rfl : ok = true := hclean
      unfold Scheduler.ledgerConfigDone at hqueue ⊢
      rw [if_pos rfl] at hqueue ⊢
      split_ifs at hqueue ⊢ with hnotifier
      · refine h.mono hqueue rfl rfl rfl ?_ rfl rfl
        simp [uncommitted, hquerying]
      · exact h.popFront (Or.inl hquerying) none
  | ledgerConfigLost hquerying => exact absurd hclean id
  | notified error hnotifying => exact h.popFront (Or.inr hnotifying) error
  | commitAnswered hpopped =>
      exact h.mono hqueue rfl rfl rfl
        (uncommitted_congr rfl (by simp [hpopped]) (by simp [Scheduler.commitAnswered, answer]))
        rfl rfl
  | registerTransactionNotifier => exact h.mono hqueue rfl rfl rfl rfl rfl rfl

theorem CommitInv.unoffered (h : CommitInv s) (hfree : s.commit = .free) :
    ∀ b ∈ s.blocks, b.id ∉ s.stored := by
  rw [← uncommitted_eq (s := s) (by simp [hfree])]
  exact h.unstored

end Scheduler

end BcosScheduler
