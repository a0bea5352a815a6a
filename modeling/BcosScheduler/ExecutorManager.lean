/-
BcosScheduler/ExecutorManager.lean

`ExecutorManager`: the registered executors, the contracts each of them was
given, and a priority queue with the least loaded executor on top.

The three containers share their `ExecutorInfo` records through pointers, and
the comparison of the queue reads the records.  Here a pointer is the position
of the record in `infos`, which only grows: a record that no container holds
any more is out of reach, not reused.  The two maps are unordered in the
source; their lists stand for one order of iteration, and a run may change that
of `m_name2Executors` at any time (`Reachable.rehash`).

The operations are modelled one at a time, as under `m_mutex`; what concurrent
calls of `dispatchExecutor` do is the subject of `BcosScheduler.DispatchExecutor`.
-/
import BcosScheduler.Common
import BcosScheduler.Lib.BinaryHeap
import Mathlib.Data.List.Sort
import Mathlib.Data.String.Basic

namespace BcosScheduler

/-- `ExecutorManager::ExecutorInfo`; `contracts` is a `std::set`. -/
structure ExecutorInfo where
  name : String
  executor : Nat
  contracts : List String := []
  deriving DecidableEq, Repr, Inhabited

/-- `contracts.insert` of a contract that is not in the set. -/
def ExecutorInfo.insert (i : ExecutorInfo) (contract : String) : ExecutorInfo :=
  { i with contracts := i.contracts.orderedInsert (· ≤ ·) contract }

/-- What an operation throws: a `bcos::Exception` or a `BCOS_ERROR`. -/
inductive ExecutorManager.Thrown
  | exception (message : String)
  | error (error : Error)
  deriving DecidableEq, Repr

/-- How an operation ends; a returned executor may be null. -/
inductive ExecutorManager.Outcome
  | returned (executor : Option Nat)
  | thrown (thrown : ExecutorManager.Thrown)
  /-- `top()` of an empty queue: undefined behaviour. -/
  | emptyTop
  deriving DecidableEq, Repr

/-- State of `ExecutorManager`. -/
structure ExecutorManager where
  infos : List ExecutorInfo := []
  contract2ExecutorInfo : List (String × Nat) := []
  name2Executors : List (String × Nat) := []
  executorPriorityQueue : List Nat := []
  deriving DecidableEq, Repr

namespace ExecutorManager

/-- The record behind a pointer. -/
def info (m : ExecutorManager) (p : Nat) : ExecutorInfo := m.infos.getD p default

/-- The key `ExecutorInfoComp` compares, the least on top. -/
def load (m : ExecutorManager) (p : Nat) : Nat := (m.info p).contracts.length

/-- Pointers to the registered executors. -/
def executors (m : ExecutorManager) : List Nat := m.name2Executors.map Prod.snd

/-! ### Operations -/

def addExecutor (m : ExecutorManager) (name : String) (executor : Nat) :
    ExecutorManager × Outcome :=
  if name ∈ m.name2Executors.map Prod.fst then
    (m, .thrown (.exception "Executor already exists"))
  else
    let m' := { m with infos := m.infos ++ [(⟨name, executor, []⟩ : ExecutorInfo)]
                       name2Executors := m.name2Executors ++ [(name, m.infos.length)] }
    ({ m' with executorPriorityQueue :=
        BinaryHeap.push m'.load m.executorPriorityQueue m.infos.length }, .returned none)

/-- `m_contract2ExecutorInfo.find`. -/
def findContract (m : ExecutorManager) (contract : String) : Option Nat :=
  m.contract2ExecutorInfo.lookup contract

/-- The part of `dispatchExecutor` under the mutex: take the executor on top
of the queue and give it the contract. -/
def assign (m : ExecutorManager) (contract : String) : ExecutorManager × Outcome :=
  match BinaryHeap.top m.executorPriorityQueue with
  | none => (m, .emptyTop)
  | some p =>
      let popped :=
        { m with executorPriorityQueue := BinaryHeap.pop m.load m.executorPriorityQueue }
      if contract ∈ (m.info p).contracts then
        -- thrown before the executor is pushed back
        (popped, .thrown (.error ⟨-1, "Insert into contracts fail!"⟩))
      else
        let inserted := { popped with infos := m.infos.set p ((m.info p).insert contract) }
        ({ inserted with
            executorPriorityQueue :=
              BinaryHeap.push inserted.load popped.executorPriorityQueue p
            contract2ExecutorInfo :=
              if contract ∈ m.contract2ExecutorInfo.map Prod.fst then m.contract2ExecutorInfo
              else m.contract2ExecutorInfo ++ [(contract, p)] },
          .returned (some (m.info p).executor))

def dispatchExecutor (m : ExecutorManager) (contract : String) : ExecutorManager × Outcome :=
  if m.name2Executors = [] then (m, .returned none)
  else
    match m.findContract contract with
    | some p => (m, .returned (some (m.info p).executor))
    | none => m.assign contract

/-- The loop of `unsafe_erase`, ended by the first contract it does not find. -/
def eraseContracts : List String → List (String × Nat) → List (String × Nat) × Bool
  | [], table => (table, true)
  | contract :: rest, table =>
      if contract ∈ table.map Prod.fst then
        eraseContracts rest (table.filter fun e => e.1 ≠ contract)
      else (table, false)

def removeExecutor (m : ExecutorManager) (name : String) : ExecutorManager × Outcome :=
  match m.name2Executors.lookup name with
  | none => (m, .thrown (.error ⟨-1, "Not found executor: " ++ name⟩))
  | some p =>
      match eraseContracts (m.info p).contracts m.contract2ExecutorInfo with
      | (table, false) =>
          ({ m with contract2ExecutorInfo := table },
            .thrown (.exception "Can't find contract in container"))
      | (table, true) =>
          let rest := m.name2Executors.filter fun e => e.1 ≠ name
          ({ m with contract2ExecutorInfo := table
                    name2Executors := rest
                    executorPriorityQueue :=
                      (rest.map Prod.snd).foldl (BinaryHeap.push m.load) [] }, .returned none)

/-! ### Runs -/

inductive Call
  | addExecutor (name : String) (executor : Nat)
  | dispatchExecutor (contract : String)
  | removeExecutor (name : String)
  deriving DecidableEq, Repr

def run (m : ExecutorManager) : Call → ExecutorManager × Outcome
  | .addExecutor name executor => m.addExecutor name executor
  | .dispatchExecutor contract => m.dispatchExecutor contract
  | .removeExecutor name => m.removeExecutor name

/-- Any sequence of calls, one at a time, from the empty manager. -/
inductive Reachable : ExecutorManager → Prop
  | empty : Reachable {}
  | call {m : ExecutorManager} (c : Call) : Reachable m → Reachable (m.run c).1
  /-- The order of iteration of `m_name2Executors` changes. -/
  | rehash {m : ExecutorManager} {order : List (String × Nat)} : Reachable m →
      order.Perm m.name2Executors → Reachable { m with name2Executors := order }

/-! ### Tables with distinct keys -/

section Table

variable {κ ν : Type*} [BEq κ] [LawfulBEq κ] {table : List (κ × ν)} {k : κ} {v : ν}

theorem lookup_eq_some_iff (h : (table.map Prod.fst).Nodup) :
    table.lookup k = some v ↔ (k, v) ∈ table := by
  induction table with
  | nil => simp
  | cons e rest ih =>
      obtain ⟨k', v'⟩ := e
      rw [List.map_cons, List.nodup_cons] at h
      by_cases hk : k = k'
      · subst hk
        have hrest : (k, v) ∉ rest := fun hmem => h.1 (List.mem_map.mpr ⟨_, hmem, rfl⟩)
        simp [hrest, eq_comm]
      · have hne : (k == k') = false := by simpa using hk
        rw [List.lookup_cons, hne, ih h.2]
        simp [hk]

theorem lookup_eq_none_iff : table.lookup k = none ↔ k ∉ table.map Prod.fst := by
  rw [List.lookup_eq_none_iff]
  simp only [List.mem_map, not_exists, not_and]
  constructor
  · intro h e he hk
    subst hk
    simpa using h e he
  · intro h e he
    simpa using fun hk => h e he hk.symm

/-- One key, one value. -/
theorem value_unique (h : (table.map Prod.fst).Nodup) {v' : ν} (hv : (k, v) ∈ table)
    (hv' : (k, v') ∈ table) : v = v' := by
  rw [← lookup_eq_some_iff h] at hv hv'
  exact Option.some.inj (hv.symm.trans hv')

end Table

/-! ### The three containers agree -/

variable {m : ExecutorManager} {contract name : String} {p q : Nat}

structure Inv (m : ExecutorManager) : Prop where
  pointers : ∀ p ∈ m.executors, p < m.infos.length
  names : (m.name2Executors.map Prod.fst).Nodup
  distinct : m.executors.Nodup
  /-- `contracts` are sets. -/
  sets : ∀ p ∈ m.executors, (m.info p).contracts.Nodup
  keys : (m.contract2ExecutorInfo.map Prod.fst).Nodup
  maps : ∀ contract p, (contract, p) ∈ m.contract2ExecutorInfo ↔
    p ∈ m.executors ∧ contract ∈ (m.info p).contracts
  queue : m.executorPriorityQueue.Perm m.executors
  heap : BinaryHeap.Ordered m.load m.executorPriorityQueue

theorem Inv.empty : Inv {} where
  pointers := by simp [executors]
  names := List.nodup_nil
  distinct := List.nodup_nil
  sets := by simp [executors]
  keys := List.nodup_nil
  maps := by simp [executors]
  queue := .refl _
  heap := by
    intro i _ a b ha
    simp at ha

/-- Contracts of different executors are disjoint. -/
theorem Inv.disjoint (h : Inv m) (hp : p ∈ m.executors) (hq : q ∈ m.executors) (hne : p ≠ q) :
    (m.info p).contracts.Disjoint (m.info q).contracts := by
  intro contract hcp hcq
  exact hne (value_unique h.keys ((h.maps contract p).mpr ⟨hp, hcp⟩)
    ((h.maps contract q).mpr ⟨hq, hcq⟩))

theorem Inv.findContract_eq_some_iff (h : Inv m) :
    m.findContract contract = some p ↔ p ∈ m.executors ∧ contract ∈ (m.info p).contracts := by
  rw [findContract, lookup_eq_some_iff h.keys, h.maps]

theorem Inv.findContract_eq_none_iff (h : Inv m) :
    m.findContract contract = none ↔ ∀ p ∈ m.executors, contract ∉ (m.info p).contracts := by
  rw [Option.eq_none_iff_forall_not_mem]
  constructor
  · intro hnone p hp hc
    exact hnone p (h.findContract_eq_some_iff.mpr ⟨hp, hc⟩)
  · intro hall p hfind
    obtain ⟨hp, hc⟩ := h.findContract_eq_some_iff.mp hfind
    exact hall p hp hc

theorem Inv.rehash (h : Inv m) {order : List (String × Nat)} (hperm : order.Perm m.name2Executors) :
    Inv { m with name2Executors := order } where
  pointers := fun p hp => h.pointers p ((hperm.map Prod.snd).mem_iff.mp hp)
  names := (hperm.map Prod.fst).nodup_iff.mpr h.names
  distinct := (hperm.map Prod.snd).nodup_iff.mpr h.distinct
  sets := fun p hp => h.sets p ((hperm.map Prod.snd).mem_iff.mp hp)
  keys := h.keys
  maps := fun contract p => (h.maps contract p).trans
    (and_congr_left fun _ => (hperm.map Prod.snd).mem_iff.symm)
  queue := h.queue.trans (hperm.map Prod.snd).symm
  heap := h.heap

/-! ### `addExecutor` -/

theorem info_append (h : p < m.infos.length) (i : ExecutorInfo) :
    (m.infos ++ [i]).getD p default = m.info p := by
  rw [info, List.getD_eq_getElem?_getD, List.getD_eq_getElem?_getD,
    List.getElem?_append_left h]

/-- The manager with a new record. -/
theorem addExecutor_eq (hname : name ∉ m.name2Executors.map Prod.fst) (executor : Nat) :
    (m.addExecutor name executor).1.infos = m.infos ++ [⟨name, executor, []⟩] ∧
    (m.addExecutor name executor).1.name2Executors
      = m.name2Executors ++ [(name, m.infos.length)] ∧
    (m.addExecutor name executor).1.executorPriorityQueue
      = BinaryHeap.push (m.addExecutor name executor).1.load m.executorPriorityQueue
          m.infos.length ∧
    (m.addExecutor name executor).1.contract2ExecutorInfo = m.contract2ExecutorInfo := by
  simp only [addExecutor, if_neg hname, and_true, true_and]
  rfl

theorem executors_addExecutor (hname : name ∉ m.name2Executors.map Prod.fst) (executor : Nat) :
    (m.addExecutor name executor).1.executors = m.executors ++ [m.infos.length] := by
  rw [executors, (addExecutor_eq hname executor).2.1, List.map_append]
  rfl

theorem Inv.addExecutor (h : Inv m) (hname : name ∉ m.name2Executors.map Prod.fst)
    (executor : Nat) : Inv (m.addExecutor name executor).1 := by
  obtain ⟨hinfos, hnames, hqueue, htable⟩ := addExecutor_eq hname executor
  have hexecutors := executors_addExecutor hname executor
  generalize (m.addExecutor name executor).1 = m' at *
  have hold : ∀ p ∈ m.executors, m'.info p = m.info p := by
    intro p hp
    rw [info, hinfos]
    exact info_append (h.pointers p hp) _
  have hnew : (m'.info m.infos.length).contracts = [] := by
    simp [info, hinfos]
  have hfresh : m.infos.length ∉ m.executors := fun hmem => (h.pointers _ hmem).ne rfl
  have hcases : ∀ p ∈ m'.executors, p ∈ m.executors ∨ p = m.infos.length := by
    intro p hp
    rw [hexecutors] at hp
    simpa using hp
  refine ⟨?_, ?_, ?_, ?_, ?_, ?_, ?_, ?_⟩
  · intro p hp
    rw [hinfos, List.length_append, List.length_singleton]
    rcases hcases p hp with hp | rfl
    · exact (h.pointers p hp).trans (Nat.lt_succ_self _)
    · exact Nat.lt_succ_self _
  · rw [hnames, List.map_append]
    apply List.Nodup.append h.names (List.nodup_singleton _)
    intro n hn hn'
    rw [List.mem_singleton.mp hn'] at hn
    exact hname hn
  · rw [hexecutors]
    apply List.Nodup.append h.distinct (List.nodup_singleton _)
    intro p hp hp'
    rw [List.mem_singleton.mp hp'] at hp
    exact hfresh hp
  · intro p hp
    rcases hcases p hp with hp | rfl
    · rw [hold p hp]
      exact h.sets p hp
    · rw [hnew]
      exact List.nodup_nil
  · rw [htable]
    exact h.keys
  · intro contract p
    rw [htable, h.maps]
    constructor
    · rintro ⟨hp, hc⟩
      rw [hold p hp, hexecutors]
      exact ⟨List.mem_append_left _ hp, hc⟩
    · rintro ⟨hp, hc⟩
      rcases hcases p hp with hp | rfl
      · rw [hold p hp] at hc
        exact ⟨hp, hc⟩
      · rw [hnew] at hc
        cases hc
  · rw [hqueue, hexecutors]
    exact (BinaryHeap.push_perm _ _ _).trans
      ((h.queue.cons _).trans (List.perm_append_singleton _ _).symm)
  · -- the keys of the queued executors did not change
    rw [hqueue]
    apply BinaryHeap.Ordered.push
    apply h.heap.congr
    intro p hp
    rw [load, hold p (h.queue.mem_iff.mp hp), load]

/-! ### `dispatchExecutor` -/

theorem info_set (hp : p < m.infos.length) (i : ExecutorInfo) (q : Nat) :
    (m.infos.set p i).getD q default = if q = p then i else m.info q := by
  rw [info, List.getD_eq_getElem?_getD, List.getD_eq_getElem?_getD]
  by_cases hq : q = p
  · subst hq
    rw [List.getElem?_set_self hp, if_pos rfl]
    rfl
  · rw [List.getElem?_set_ne (Ne.symm hq), if_neg hq]

/-- A queue with executors has a top, and the top is one of them. -/
theorem Inv.exists_top (h : Inv m) (hne : m.name2Executors ≠ []) :
    ∃ p ∈ m.executors, BinaryHeap.top m.executorPriorityQueue = some p := by
  have hlen : m.executorPriorityQueue ≠ [] := by
    intro hnil
    have hperm := h.queue
    rw [hnil] at hperm
    exact hne (List.map_eq_nil_iff.mp hperm.nil_eq.symm)
  have htop := List.head?_eq_some_head hlen
  exact ⟨_, h.queue.mem_iff.mp (List.mem_of_mem_head? htop), htop⟩

/-- The manager after the contract was given to `p`. -/
theorem assign_eq (htop : BinaryHeap.top m.executorPriorityQueue = some p)
    (hnew : contract ∉ (m.info p).contracts) :
    (m.assign contract).2 = .returned (some (m.info p).executor) ∧
    (m.assign contract).1.infos = m.infos.set p ((m.info p).insert contract) ∧
    (m.assign contract).1.name2Executors = m.name2Executors ∧
    (m.assign contract).1.executorPriorityQueue =
      BinaryHeap.push (m.assign contract).1.load
        (BinaryHeap.pop m.load m.executorPriorityQueue) p ∧
    (m.assign contract).1.contract2ExecutorInfo =
      if contract ∈ m.contract2ExecutorInfo.map Prod.fst then m.contract2ExecutorInfo
      else m.contract2ExecutorInfo ++ [(contract, p)] := by
  simp only [assign, htop, if_neg hnew, true_and, and_true]
  rfl

theorem executors_assign (htop : BinaryHeap.top m.executorPriorityQueue = some p)
    (hnew : contract ∉ (m.info p).contracts) :
    (m.assign contract).1.executors = m.executors := by
  rw [executors, (assign_eq htop hnew).2.2.1, executors]

theorem info_assign (htop : BinaryHeap.top m.executorPriorityQueue = some p)
    (hnew : contract ∉ (m.info p).contracts) (hp : p < m.infos.length) (q : Nat) :
    (m.assign contract).1.info q
      = if q = p then (m.info p).insert contract else m.info q := by
  rw [info, (assign_eq htop hnew).2.1]
  exact info_set hp _ q

theorem Inv.assign (h : Inv m) (htop : BinaryHeap.top m.executorPriorityQueue = some p)
    (hnew : m.findContract contract = none) : Inv (m.assign contract).1 := by
  have hp : p ∈ m.executors := h.queue.mem_iff.mp (List.mem_of_mem_head? htop)
  have hfresh := h.findContract_eq_none_iff.mp hnew
  obtain ⟨-, hinfos, hnames, hqueue, htable⟩ := assign_eq htop (hfresh p hp)
  rw [if_neg (lookup_eq_none_iff.mp hnew)] at htable
  have hinfo := info_assign htop (hfresh p hp) (h.pointers p hp)
  have hexecutors := executors_assign htop (hfresh p hp)
  generalize (m.assign contract).1 = m' at *
  have hmem : ∀ c q, c ∈ (m'.info q).contracts ↔
      c ∈ (m.info q).contracts ∨ c = contract ∧ q = p := by
    intro c q
    rw [hinfo]
    by_cases hq : q = p
    · subst hq
      simp only [if_pos, ExecutorInfo.insert, List.mem_orderedInsert, and_true]
      exact or_comm
    · simp [hq]
  refine ⟨?_, ?_, ?_, ?_, ?_, ?_, ?_, ?_⟩
  · rw [hexecutors, hinfos, List.length_set]
    exact h.pointers
  · rw [hnames]
    exact h.names
  · rw [hexecutors]
    exact h.distinct
  · intro q hq
    rw [hexecutors] at hq
    rw [hinfo]
    split_ifs
    · exact (List.perm_orderedInsert _ _ _).nodup_iff.mpr
        (List.nodup_cons.mpr ⟨hfresh p hp, h.sets p hp⟩)
    · exact h.sets q hq
  · rw [htable, List.map_append]
    apply List.Nodup.append h.keys (List.nodup_singleton _)
    intro c hc hc'
    rw [List.mem_singleton.mp hc'] at hc
    exact lookup_eq_none_iff.mp hnew hc
  · intro c q
    rw [htable, hexecutors, hmem, List.mem_append, h.maps, List.mem_singleton, Prod.mk.injEq]
    constructor
    · rintro (⟨hq, hc⟩ | ⟨rfl, rfl⟩)
      · exact ⟨hq, Or.inl hc⟩
      · exact ⟨hp, Or.inr ⟨rfl, rfl⟩⟩
    · rintro ⟨hq, hc | hc⟩
      · exact Or.inl ⟨hq, hc⟩
      · exact Or.inr hc
  · rw [hqueue, hexecutors]
    exact (BinaryHeap.push_perm _ _ _).trans ((BinaryHeap.pop_perm _ htop).symm.trans h.queue)
  · -- only the key of the popped executor changed
    rw [hqueue]
    apply BinaryHeap.Ordered.push
    apply h.heap.pop.congr
    intro q hq
    have hnodup := (BinaryHeap.pop_perm m.load htop).nodup_iff.mp
      (h.queue.nodup_iff.mpr h.distinct)
    have hne : q ≠ p := fun heq => (List.nodup_cons.mp hnodup).1 (heq ▸ hq)
    rw [load, hinfo, if_neg hne, load]

theorem Inv.findContract_assign (h : Inv m)
    (htop : BinaryHeap.top m.executorPriorityQueue = some p)
    (hnew : m.findContract contract = none) :
    (m.assign contract).1.findContract contract = some p := by
  have hp : p ∈ m.executors := h.queue.mem_iff.mp (List.mem_of_mem_head? htop)
  obtain ⟨-, -, -, -, htable⟩ := assign_eq htop (h.findContract_eq_none_iff.mp hnew p hp)
  rw [if_neg (lookup_eq_none_iff.mp hnew)] at htable
  rw [findContract, lookup_eq_some_iff (h.assign htop hnew).keys, htable]
  exact List.mem_append_right _ (List.mem_singleton.mpr rfl)

/-- What the others see of an assignment: executors stay, records keep their
executor and contracts, and no entry of the map changes. -/
theorem Inv.assign_frame (h : Inv m) (htop : BinaryHeap.top m.executorPriorityQueue = some p)
    (hnew : m.findContract contract = none) :
    (m.assign contract).1.executors = m.executors ∧
    (∀ q, ((m.assign contract).1.info q).executor = (m.info q).executor) ∧
    ∀ c q, m.findContract c = some q → (m.assign contract).1.findContract c = some q := by
  have hp : p ∈ m.executors := h.queue.mem_iff.mp (List.mem_of_mem_head? htop)
  have hinv := h.assign htop hnew
  have hfresh := h.findContract_eq_none_iff.mp hnew p hp
  obtain ⟨-, -, -, -, htable⟩ := assign_eq htop hfresh
  rw [if_neg (lookup_eq_none_iff.mp hnew)] at htable
  refine ⟨executors_assign htop hfresh, fun q => ?_, fun c q hfind => ?_⟩
  · rw [info_assign htop hfresh (h.pointers p hp)]
    split_ifs with hq
    · rw [hq]
      rfl
    · rfl
  · rw [findContract, lookup_eq_some_iff h.keys] at hfind
    rw [findContract, lookup_eq_some_iff hinv.keys, htable]
    exact List.mem_append_left _ hfind

/-! ### `removeExecutor` -/

/-- Erasing contracts that are all there. -/
theorem eraseContracts_eq {contracts : List String} {table : List (String × Nat)}
    (hnodup : contracts.Nodup) (hmem : ∀ c ∈ contracts, c ∈ table.map Prod.fst) :
    eraseContracts contracts table = (table.filter fun e => e.1 ∉ contracts, true) := by
  induction contracts generalizing table with
  | nil => simp [eraseContracts]
  | cons c rest ih =>
      obtain ⟨hc, hrest⟩ := List.nodup_cons.mp hnodup
      rw [eraseContracts, if_pos (hmem c List.mem_cons_self), ih hrest]
      · rw [List.filter_filter]
        simp [Bool.and_comm]
      · intro d hd
        obtain ⟨e, he, rfl⟩ := List.mem_map.mp (hmem d (List.mem_cons_of_mem c hd))
        refine List.mem_map.mpr ⟨e, List.mem_filter.mpr ⟨he, ?_⟩, rfl⟩
        simpa using fun heq : e.1 = c => hc (heq ▸ hd)

/-- Pushing executors one by one makes a heap of them. -/
theorem foldl_push {key : Nat → Nat} {queue : List Nat} (hheap : BinaryHeap.Ordered key queue)
    (ps : List Nat) :
    (ps.foldl (BinaryHeap.push key) queue).Perm (queue ++ ps) ∧
      BinaryHeap.Ordered key (ps.foldl (BinaryHeap.push key) queue) := by
  induction ps generalizing queue with
  | nil => exact ⟨by simp, hheap⟩
  | cons p rest ih =>
      obtain ⟨hperm, hordered⟩ := ih (hheap.push p)
      refine ⟨hperm.trans ?_, hordered⟩
      have hpush := (BinaryHeap.push_perm key queue p).append_right rest
      exact hpush.trans List.perm_middle.symm

/-- The manager without the executor: its record stays, its entries go. -/
theorem Inv.removeExecutor_eq (h : Inv m) (hfind : m.name2Executors.lookup name = some p) :
    m.removeExecutor name =
      ({ m with
          contract2ExecutorInfo := m.contract2ExecutorInfo.filter fun e => e.1 ∉ (m.info p).contracts
          name2Executors := m.name2Executors.filter fun e => e.1 ≠ name
          executorPriorityQueue := ((m.name2Executors.filter fun e => e.1 ≠ name).map Prod.snd).foldl
            (BinaryHeap.push m.load) [] }, .returned none) := by
  have hentry : (name, p) ∈ m.name2Executors := (lookup_eq_some_iff h.names).mp hfind
  have hp : p ∈ m.executors := List.mem_map.mpr ⟨_, hentry, rfl⟩
  have hthere : ∀ c ∈ (m.info p).contracts, c ∈ m.contract2ExecutorInfo.map Prod.fst :=
    fun c hc => List.mem_map.mpr ⟨(c, p), (h.maps c p).mpr ⟨hp, hc⟩, rfl⟩
  have herase := eraseContracts_eq (h.sets p hp) hthere
  simp only [ExecutorManager.removeExecutor, hfind, herase]

theorem Inv.mem_executors_removeExecutor (h : Inv m)
    (hfind : m.name2Executors.lookup name = some p) :
    q ∈ (m.removeExecutor name).1.executors ↔ q ∈ m.executors ∧ q ≠ p := by
  have hentry : (name, p) ∈ m.name2Executors := (lookup_eq_some_iff h.names).mp hfind
  rw [h.removeExecutor_eq hfind]
  simp only [executors, List.mem_map, List.mem_filter, decide_eq_true_eq]
  constructor
  · rintro ⟨e, ⟨he, hname⟩, rfl⟩
    refine ⟨⟨e, he, rfl⟩, fun heq => hname ?_⟩
    exact congrArg Prod.fst (List.inj_on_of_nodup_map h.distinct he hentry heq)
  · rintro ⟨⟨e, he, rfl⟩, hne⟩
    refine ⟨e, ⟨he, fun heq => hne ?_⟩, rfl⟩
    exact congrArg Prod.snd (List.inj_on_of_nodup_map h.names he hentry heq)

theorem Inv.removeExecutor (h : Inv m) (hfind : m.name2Executors.lookup name = some p) :
    (m.removeExecutor name).2 = .returned none ∧ Inv (m.removeExecutor name).1 := by
  have hentry : (name, p) ∈ m.name2Executors := (lookup_eq_some_iff h.names).mp hfind
  have hp : p ∈ m.executors := List.mem_map.mpr ⟨_, hentry, rfl⟩
  have hmem := fun q => h.mem_executors_removeExecutor (q := q) hfind
  rw [h.removeExecutor_eq hfind] at hmem ⊢
  refine ⟨rfl, ?_⟩
  dsimp only at hmem ⊢
  set rest := m.name2Executors.filter fun e => e.1 ≠ name with hrest
  have hsub : rest.Sublist m.name2Executors := List.filter_sublist
  have hnil : BinaryHeap.Ordered m.load [] := fun i _ a b ha => by simp at ha
  obtain ⟨hperm, hordered⟩ := foldl_push hnil (rest.map Prod.snd)
  refine ⟨fun q hq => h.pointers q ((hmem q).mp hq).1, (hsub.map _).nodup h.names,
    (hsub.map _).nodup h.distinct, fun q hq => h.sets q ((hmem q).mp hq).1,
    (List.filter_sublist.map _).nodup h.keys, ?_, hperm, hordered⟩
  intro c q
  show (c, q) ∈ List.filter _ _ ↔ q ∈ rest.map Prod.snd ∧ c ∈ (m.info q).contracts
  rw [show q ∈ rest.map Prod.snd ↔ _ from hmem q, List.mem_filter, h.maps]
  constructor
  · rintro ⟨⟨hq, hc⟩, hnot⟩
    refine ⟨⟨hq, ?_⟩, hc⟩
    rintro rfl
    simp [hc] at hnot
  · rintro ⟨⟨hq, hne⟩, hc⟩
    refine ⟨⟨hq, hc⟩, ?_⟩
    simpa using fun hcp => h.disjoint hq hp hne hc hcp

/-! ### The executor table along a run -/

/-- What a call can do: throw for a duplicate or an unknown name and change
nothing, or return and keep the invariant. -/
theorem Inv.run_cases (h : Inv m) (c : Call) :
    (∃ e, (m.run c).2 = .returned e ∧ Inv (m.run c).1) ∨
    (∃ name executor, c = .addExecutor name executor ∧ name ∈ m.name2Executors.map Prod.fst ∧
      m.run c = (m, .thrown (.exception "Executor already exists"))) ∨
    ∃ name, c = .removeExecutor name ∧ name ∉ m.name2Executors.map Prod.fst ∧
      m.run c = (m, .thrown (.error ⟨-1, "Not found executor: " ++ name⟩)) := by
  cases c with
  | addExecutor name executor =>
      by_cases hname : name ∈ m.name2Executors.map Prod.fst
      · exact Or.inr (Or.inl ⟨name, executor, rfl, hname, if_pos hname⟩)
      · refine Or.inl ⟨none, ?_, h.addExecutor hname executor⟩
        simp only [run, ExecutorManager.addExecutor, if_neg hname]
  | dispatchExecutor contract =>
      left
      by_cases hnil : m.name2Executors = []
      · simp only [run, dispatchExecutor, if_pos hnil]
        exact ⟨none, rfl, h⟩
      · rcases hfind : m.findContract contract with _ | p
        · obtain ⟨p, hp, htop⟩ := h.exists_top hnil
          simp only [run, dispatchExecutor, if_neg hnil, hfind]
          exact ⟨_, (assign_eq htop (h.findContract_eq_none_iff.mp hfind p hp)).1,
            h.assign htop hfind⟩
        · simp only [run, dispatchExecutor, if_neg hnil, hfind]
          exact ⟨_, rfl, h⟩
  | removeExecutor name =>
      rcases hfind : m.name2Executors.lookup name with _ | p
      · refine Or.inr (Or.inr ⟨name, rfl, lookup_eq_none_iff.mp hfind, ?_⟩)
        simp only [run, ExecutorManager.removeExecutor, hfind]
      · obtain ⟨hreturned, hinv⟩ := h.removeExecutor hfind
        exact Or.inl ⟨none, hreturned, hinv⟩

theorem Inv.run (h : Inv m) (c : Call) : Inv (m.run c).1 := by
  rcases h.run_cases c with ⟨e, -, hinv⟩ | ⟨name, executor, -, -, heq⟩ | ⟨name, -, -, heq⟩
  · exact hinv
  · rw [heq]
    exact h
  · rw [heq]
    exact h

theorem Reachable.inv (h : Reachable m) : Inv m := by
  induction h with
  | empty => exact .empty
  | call c _ ih => exact ih.run c
  | rehash _ hperm ih => exact ih.rehash hperm

/-- **The executor table.**  After any sequence of calls the contracts of the
executors are disjoint, `m_contract2ExecutorInfo` says whose they are, and the
queue is a heap of exactly the registered executors.  So no further call takes
the top of an empty queue, and the only ones that throw are those with a
duplicate or an unknown name, which change nothing. -/
theorem executorTable_invariant (h : Reachable m) :
    (∀ p ∈ m.executors, ∀ q ∈ m.executors, p ≠ q →
      (m.info p).contracts.Disjoint (m.info q).contracts) ∧
    (∀ contract p, m.findContract contract = some p ↔
      p ∈ m.executors ∧ contract ∈ (m.info p).contracts) ∧
    m.executors.Nodup ∧ m.executorPriorityQueue.Perm m.executors ∧
    BinaryHeap.Ordered m.load m.executorPriorityQueue ∧
    ∀ c, (m.run c).2 ≠ .emptyTop ∧
      ∀ t, (m.run c).2 = .thrown t → (m.run c).1 = m ∧
        ((t = .exception "Executor already exists" ∧
          ∃ name executor, c = .addExecutor name executor ∧
            name ∈ m.name2Executors.map Prod.fst) ∨
        ∃ name, t = .error ⟨-1, "Not found executor: " ++ name⟩ ∧ c = .removeExecutor name ∧
          name ∉ m.name2Executors.map Prod.fst) := by
  have hinv := h.inv
  refine ⟨fun p hp q hq => hinv.disjoint hp hq, fun _ _ => hinv.findContract_eq_some_iff,
    hinv.distinct, hinv.queue, hinv.heap, fun c => ?_⟩
  rcases hinv.run_cases c with ⟨e, he, -⟩ | ⟨name, executor, rfl, hname, heq⟩ |
    ⟨name, rfl, hname, heq⟩
  · rw [he]
    exact ⟨by simp, fun t ht => by cases ht⟩
  · rw [heq]
    refine ⟨by simp, fun t ht => ⟨rfl, Or.inl ⟨?_, name, executor, rfl, hname⟩⟩⟩
    cases ht
    rfl
  · rw [heq]
    refine ⟨by simp, fun t ht => ⟨rfl, Or.inr ⟨name, ?_, rfl, hname⟩⟩⟩
    cases ht
    rfl

/-- Two executors, nothing dispatched. -/
def twoExecutors : ExecutorManager :=
  ((({} : ExecutorManager).addExecutor "executor1" 1).1.addExecutor "executor2" 2).1

theorem twoExecutors_reachable : Reachable twoExecutors :=
  .call (.addExecutor "executor2" 2) (.call (.addExecutor "executor1" 1) .empty)

/-- A first contract goes to the first executor, which is then not on top. -/
theorem executorTable_invariant_two :
    (twoExecutors.run (.dispatchExecutor "contract")).1.executorPriorityQueue = [1, 0] ∧
    (twoExecutors.run (.dispatchExecutor "contract")).1.executorPriorityQueue.Perm
      (twoExecutors.run (.dispatchExecutor "contract")).1.executors :=
  ⟨by decide, (executorTable_invariant
    (.call (.dispatchExecutor "contract") twoExecutors_reachable)).2.2.2.1⟩

end ExecutorManager

end BcosScheduler
