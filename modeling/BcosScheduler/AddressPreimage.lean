/-
BcosScheduler/AddressPreimage.lean

Addresses of contracts created without a salt come from unique preimages.

`newEVMAddress` hashes the block number, the context and a sequence number,
written in decimal and joined by underscores; the text determines the three
numbers (`addressPreimage_injective`).  `startBatch` calls it with the number of
the frame the message is for, in both places (`turnOf_createsAt`), and the frames
of a run are opened once each (`TurnsOk`), so equal texts come from one block
number, one transaction and one call frame.
-/
import Mathlib
import BcosScheduler.CallReturns

namespace BcosScheduler

open CallTree

/-! ### The hashed text -/

/-- What `newEVMAddress(blockNumber, contextID, seq)` hashes. -/
def addressPreimage (blockNumber : BlockNumber) (contextID : ContextID) (seq : Seq) : String :=
  toString blockNumber ++ "_" ++ toString contextID ++ "_" ++ toString seq

theorem newEVMAddress_eq (hashImpl : Bytes → H256) (blockNumber : BlockNumber)
    (contextID : ContextID) (seq : Seq) :
    newEVMAddress hashImpl blockNumber contextID seq = addressOfHash hashImpl
      (hashImpl (addressPreimage blockNumber contextID seq).toUTF8.data.toList) := rfl

theorem underscore_notMem_repr (n : Nat) : '_' ∉ (Nat.repr n).toList := by
  rw [Nat.repr_eq_ofList_toDigits, String.toList_ofList]
  intro hmem
  have hdigit := Nat.isDigit_of_mem_toDigits (by decide) (by decide) hmem
  cases hdigit

theorem underscore_notMem (a : Int) : '_' ∉ (toString a).toList := by
  cases a with
  | ofNat n => exact underscore_notMem_repr n
  | negSucc n =>
      have htext : (toString (Int.negSucc n)).toList = '-' :: (Nat.repr n.succ).toList := by
        show ("-" ++ Nat.repr n.succ).toList = _
        rw [String.toList_append]
        rfl
      rw [htext, List.mem_cons, not_or]
      exact ⟨by decide, underscore_notMem_repr _⟩

/-- The parts of the text, between underscores. -/
theorem splitOn_addressPreimage (number : BlockNumber) (c : ContextID) (s : Seq) :
    (addressPreimage number c s).toList.splitOn '_'
      = [(toString number).toList, (toString c).toList, (toString s).toList] := by
  have hjoin : (addressPreimage number c s).toList
      = ['_'].intercalate [(toString number).toList, (toString c).toList, (toString s).toList] := by
    simp [addressPreimage, List.intercalate]
  rw [hjoin]
  apply List.splitOn_intercalate _ _ (by simp)
  intro part hpart
  simp only [List.mem_cons, List.not_mem_nil, or_false] at hpart
  rcases hpart with rfl | rfl | rfl <;> exact underscore_notMem _

theorem toString_injective {a b : Int} (h : (toString a).toList = (toString b).toList) : a = b :=
  Int.repr_injective (String.toList_inj.mp h)

/-- The text determines the numbers. -/
theorem addressPreimage_injective {number number' : BlockNumber} {c c' : ContextID} {s s' : Seq}
    (h : addressPreimage number c s = addressPreimage number' c' s') :
    number = number' ∧ c = c' ∧ s = s' := by
  have hparts := splitOn_addressPreimage number c s
  rw [h, splitOn_addressPreimage] at hparts
  simp only [List.cons.injEq, and_true] at hparts
  exact ⟨(toString_injective hparts.1).symm, (toString_injective hparts.2.1).symm,
    (toString_injective hparts.2.2).symm⟩

/-! ### Where addresses are assigned -/

/-- The sequence number a turn of `startBatch` gives to `newEVMAddress`: of the new
frame for a request, of the message for a `SEND_BACK`, if the message has neither
target nor salt. -/
def Turn.createsAt (t : Turn) : Option Seq :=
  match t.kind, t.before.message with
  | .sent _, some message =>
      if message.toAddr = "" ∧ message.createSalt = none then
        match message.type with
        | .MESSAGE | .TXHASH => some t.before.currentSeq
        | .SEND_BACK => some message.seq
        | _ => none
      else none
  | _, _ => none

variable {env : BlockEnv} {ctx : SendContext} {state : ExecutiveState} {t : Turn} {s : Seq}

theorem turnOf_before (h : turnOf env ctx state = some t) : t.before = state := by
  unfold turnOf at h
  split at h <;> cases h <;> rfl

/-- The target that is made up for a message without target and salt. -/
theorem toAddr_withTarget_of_empty (message : ExecutionMessage) (hto : message.toAddr = "")
    (hsalt : message.createSalt = none) (c : ContextID) (s : Seq) :
    (withTarget env message c s).toAddr = newEVMAddress env.hashImpl env.number c s := by
  simp [withTarget, hto, assignAddress, hsalt]

theorem Prepares.createsAt {message message' sent : ExecutionMessage} {callStack : List Seq}
    {currentSeq : Seq} {keyLocks : GraphKeyLocks} {created : Bool} {after : ExecutiveState}
    (hprep : Prepares env ctx state message callStack currentSeq keyLocks message' created)
    (hmsg : state.message = some message)
    (hs : (⟨.sent sent, state, after⟩ : Turn).createsAt = some s) :
    message'.seq = s ∧
      message'.toAddr = newEVMAddress env.hashImpl env.number state.contextID s := by
  simp only [Turn.createsAt, hmsg] at hs
  split_ifs at hs with hplain
  cases hprep with
  | push htype =>
      obtain rfl : state.currentSeq = s := by
        rcases htype with htype | htype
        · rw [htype] at hs
          exact Option.some.inj hs
        · rw [htype] at hs
          exact Option.some.inj hs
      exact ⟨rfl, toAddr_withTarget_of_empty message hplain.1 hplain.2 _ _⟩
  | pop htype _ =>
      rcases htype with htype | htype
      · rw [htype] at hs
        cases hs
      · rw [htype] at hs
        cases hs
  | revertKeyLock htype =>
      rw [htype] at hs
      cases hs
  | retry htype _ =>
      rw [htype] at hs
      cases hs
  | sendBack htype =>
      rw [htype] at hs
      obtain rfl := Option.some.inj hs
      refine ⟨seq_withTarget _ _ _, ?_⟩
      apply toAddr_withTarget_of_empty
      · exact hplain.1
      · exact hplain.2

/-- A turn that assigns an address sends it as the target, to the frame of that
number. -/
theorem turnOf_createsAt (h : turnOf env ctx state = some t) (hs : t.createsAt = some s) :
    ∃ message, t.message? = some message ∧ message.seq = s ∧
      message.toAddr = newEVMAddress env.hashImpl env.number t.contextID s := by
  unfold turnOf at h
  rcases hcall : startBatchCallback env ctx state with f | action
  · rw [hcall] at h
    cases h
  · rw [hcall] at h
    rcases startBatchCallback_cases hcall with ⟨-, rfl⟩ | ⟨-, message, hmsg,
      ⟨-, -, rfl⟩ | ⟨-, ⟨-, -, rfl⟩ | ⟨-, -, rfl⟩ |
        ⟨callStack, currentSeq, keyLocks, message', created, hprep, rfl⟩⟩⟩
    · cases h
    · cases h
    · cases h
    · cases h
      cases hs
    · obtain rfl := Option.some.inj h
      obtain ⟨hseq, hto⟩ := hprep.createsAt hmsg hs
      exact ⟨_, rfl, hseq, hto⟩

/-! ### Whole runs -/

variable {exec exec' : ExecuteEnv} {block block' : Block} {executors executors' : Executors}
  {x x' : Execution} {turns turns' : List Turn} {t' : Turn} {s' : Seq}

/-- The turns of a step: of `DAGExecute`, or of the callback of `startBatch`. -/
theorem Execution.mem_turns (h : t ∈ x.turns env x') :
    (∃ message, t.kind = .dag message) ∨ ∃ ctx, turnOf env ctx t.before = some t := by
  unfold Execution.turns at h
  rcases List.mem_append.mp h with h | h
  · split at h
    next d d' _ _ =>
      simp only [DagMachine.turns, List.mem_flatMap, List.mem_filterMap] at h
      obtain ⟨contract, -, n, -, hturn⟩ := h
      obtain ⟨message, -, rfl⟩ := Option.map_eq_some_iff.mp hturn
      exact Or.inl ⟨message, rfl⟩
    next => cases h
  · obtain ⟨⟨m, m'⟩, -, hturn⟩ := List.mem_filterMap.mp h
    simp only [Machine.turn] at hturn
    split at hturn
    next n rest _ =>
      split_ifs at hturn
      exact Or.inr ⟨m.log.ctx, by rw [turnOf_before hturn]; exact hturn⟩
    next => cases hturn

theorem TurnRun.mem_turns (h : TurnRun exec block executors x turns) (ht : t ∈ turns) :
    (∃ message, t.kind = .dag message) ∨
      ∃ ctx, turnOf (exec.blockEnv block) ctx t.before = some t := by
  induction h with
  | start => cases ht
  | step _ _ _ ih =>
      rcases List.mem_append.mp ht with ht | ht
      · exact ih ht
      · exact Execution.mem_turns ht

/-- The frame a turn sends to, with its opening. -/
structure FrameOf (turns : List Turn) (t : Turn) (o : Opening ContextID Seq) : Prop where
  opened : o ∈ openings turns
  context : o.context = t.contextID
  top : t.after.callStack.head? = some o.frame

/-- What an assigned address belongs to. -/
theorem TurnRun.createsAt (hkeeps : executors.KeepsFrame)
    (h : TurnRun exec block executors x turns) (ht : t ∈ turns) (hs : t.createsAt = some s) :
    (∃ message, t.message? = some message ∧
      message.toAddr = newEVMAddress exec.hashImpl block.number t.contextID s) ∧
    ∃ o, FrameOf turns t o ∧ o.frame = s := by
  have hturn : ∃ ctx, turnOf (exec.blockEnv block) ctx t.before = some t := by
    rcases h.mem_turns ht with ⟨message, hkind⟩ | hturn
    · rw [Turn.createsAt, hkind] at hs
      cases hs
    · exact hturn
  obtain ⟨ctx, hturn⟩ := hturn
  obtain ⟨message, hmsg, rfl, hto⟩ := turnOf_createsAt hturn hs
  obtain ⟨before, after, rfl⟩ := List.append_of_mem ht
  have hok := (h.execCalls hkeeps).turnsOk.each before t after rfl
  -- the top frame was opened, by this turn or before
  have htop := hok.top message hmsg
  obtain ⟨caller, hopened⟩ := hok.opened message.seq (List.mem_of_mem_head? htop)
  refine ⟨⟨message, hmsg, hto⟩, ⟨t.contextID, message.seq, caller⟩, ⟨?_, rfl, htop⟩, rfl⟩
  have hsplit : before ++ t :: after = (before ++ [t]) ++ after := by simp
  rw [hsplit, openings_append]
  exact List.mem_append_left _ hopened

/-- Addresses assigned without a salt, in any two runs of blocks or in one, come
from the same hashed text only for one block number, one transaction and one call
frame. -/
theorem preimage_of_one_frame (hkeeps : executors.KeepsFrame) (hkeeps' : executors'.KeepsFrame)
    (h : TurnRun exec block executors x turns) (h' : TurnRun exec' block' executors' x' turns')
    (ht : t ∈ turns) (ht' : t' ∈ turns') (hs : t.createsAt = some s) (hs' : t'.createsAt = some s') :
    (∃ message, t.message? = some message ∧ message.toAddr = addressOfHash exec.hashImpl
      (exec.hashImpl (addressPreimage block.number t.contextID s).toUTF8.data.toList)) ∧
    (addressPreimage block.number t.contextID s = addressPreimage block'.number t'.contextID s' →
      block.number = block'.number ∧ t.contextID = t'.contextID ∧
      ∃ o o', FrameOf turns t o ∧ FrameOf turns' t' o' ∧ o.key = o'.key ∧
        (turns = turns' → o = o')) := by
  obtain ⟨⟨message, hmsg, haddress⟩, o, ho, rfl⟩ := h.createsAt hkeeps ht hs
  obtain ⟨-, o', ho', rfl⟩ := h'.createsAt hkeeps' ht' hs'
  rw [newEVMAddress_eq] at haddress
  refine ⟨⟨message, hmsg, haddress⟩, fun heq => ?_⟩
  obtain ⟨hnumber, hctx, hframe⟩ := addressPreimage_injective heq
  have hkey : o.key = o'.key := by
    rw [Opening.key, Opening.key, ho.context, ho'.context, hctx, hframe]
  refine ⟨hnumber, hctx, o, o', ho, ho', hkey, ?_⟩
  rintro rfl
  exact List.inj_on_of_nodup_map (h.execCalls hkeeps).turnsOk.opensOnce ho.opened ho'.opened hkey

/-- Executors that send every message back without its target. -/
def sendingBack (_ : List (List ExecutionMessage)) (message : ExecutionMessage) : Reply :=
  .message { message with type := .SEND_BACK, toAddr := "" }

theorem sendingBack_keepsFrame : (Executors.ofFun sendingBack plainRoot).KeepsFrame where
  contextID := by
    intro before message r h
    cases h
    rfl
  seq := by
    intro before message r h
    cases h
    rfl

/-- A creation that is sent back gets its address from the same text again; it is
for the same frame. -/
theorem preimage_of_one_frame_sent_back :
    ∃ x turns t t', TurnRun plainEnv (callsTo [""]) (.ofFun sendingBack plainRoot) x turns ∧
      turns = [t, t'] ∧ t.createsAt = some 0 ∧ t'.createsAt = some 0 ∧
      ∃ o, FrameOf turns t o ∧ FrameOf turns t' o := by
  have hrun := (@turnRun_dmt plainEnv (callsTo [""]) sendingBack plainRoot rfl
    (by decide +kernel)).along [.visit, .allSended, .reply 0, .visit] rfl rfl
  have hturns : ([] ++ (dmtStart plainEnv (callsTo [""])).turnsAlong
      (plainEnv.blockEnv (callsTo [""])) false sendingBack plainRoot
      [.visit, .allSended, .reply 0, .visit]).map (fun t : Turn => (t.contextID, t.createsAt))
        = [(0, some 0), (0, some 0)] := by decide +kernel
  obtain ⟨t, rest, hlist, ht, hrest⟩ := List.map_eq_cons_iff.mp hturns
  obtain ⟨t', rest', rfl, ht', hnil⟩ := List.map_eq_cons_iff.mp hrest
  obtain rfl := List.map_eq_nil_iff.mp hnil
  obtain ⟨hctx, hs⟩ := Prod.mk.inj ht
  obtain ⟨hctx', hs'⟩ := Prod.mk.inj ht'
  have hrun' := hrun
  rw [show plainEnv.staticCall = false from rfl, hlist] at hrun'
  obtain ⟨-, -, o, o', ho, ho', -, hone⟩ := (preimage_of_one_frame sendingBack_keepsFrame
    sendingBack_keepsFrame hrun' hrun' (by simp) (by simp) hs hs').2 (by rw [hctx, hctx'])
  obtain rfl := hone rfl
  exact ⟨_, _, t, t', hrun', rfl, hs, hs', o, ho, ho'⟩

end BcosScheduler
