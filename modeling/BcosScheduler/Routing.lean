/-
BcosScheduler/Routing.lean

Which executor a contract is routed to, along any sequence of calls.

An assigned contract keeps its executor until that executor is removed
(`Path.findContract`), and a removal takes away the assignments of its own
contracts and no others (`Inv.findContract_removeExecutor`).  A new contract goes
to a least loaded executor, so while executors are neither added nor removed
their loads stay balanced, and they add up to the number of contracts
(`Inv.sum_load`, `Path.dispatched`).
-/
import BcosScheduler.ExecutorManager
import BcosScheduler.Lib.Balance
import Mathlib.Data.List.Dedup

namespace BcosScheduler

namespace ExecutorManager

/-- The calls made one at a time from one state to another; the order of iteration of
`m_name2Executors` may change in between. -/
inductive Path (m : ExecutorManager) : List Call → ExecutorManager → Prop
  | refl : Path m [] m
  | call {m' : ExecutorManager} {calls : List Call} (c : Call) :
      Path m calls m' → Path m (calls ++ [c]) (m'.run c).1
  | rehash {m' : ExecutorManager} {calls : List Call} {order : List (String × Nat)} :
      Path m calls m' → order.Perm m'.name2Executors →
      Path m calls { m' with name2Executors := order }

variable {m m' : ExecutorManager} {calls : List Call} {contract name : String} {p q : Nat}

theorem Path.reachable (h : Path m calls m') (hm : Reachable m) : Reachable m' := by
  induction h with
  | refl => exact hm
  | call c _ ih => exact .call c ih
  | rehash _ hperm ih => exact .rehash ih hperm

/-! ### What a call can do -/

/-- The state after a call: the one before, or that of the branch that changes it. -/
inductive Effect (m : ExecutorManager) : Call → ExecutorManager → Prop
  | unchanged {c : Call} : Effect m c m
  | added {name : String} {executor : Nat} : name ∉ m.name2Executors.map Prod.fst →
      Effect m (.addExecutor name executor) (m.addExecutor name executor).1
  | assigned {contract : String} {p : Nat} : BinaryHeap.top m.executorPriorityQueue = some p →
      p ∈ m.executors → m.findContract contract = none →
      Effect m (.dispatchExecutor contract) (m.assign contract).1
  | removed {name : String} {p : Nat} : m.name2Executors.lookup name = some p →
      Effect m (.removeExecutor name) (m.removeExecutor name).1

theorem Inv.effect (h : Inv m) (c : Call) : Effect m c (m.run c).1 := by
  cases c with
  | addExecutor name executor =>
      by_cases hname : name ∈ m.name2Executors.map Prod.fst
      · have heq : (m.run (.addExecutor name executor)).1 = m := by
          simp only [ExecutorManager.run, ExecutorManager.addExecutor, if_pos hname]
        rw [heq]
        exact .unchanged
      · exact .added hname
  | dispatchExecutor contract =>
      simp only [ExecutorManager.run, dispatchExecutor]
      split_ifs with hnil
      · exact .unchanged
      · rcases hfind : m.findContract contract with _ | r
        · obtain ⟨p, hp, htop⟩ := h.exists_top hnil
          exact .assigned htop hp hfind
        · exact .unchanged
  | removeExecutor name =>
      rcases hfind : m.name2Executors.lookup name with _ | p
      · have heq : (m.run (.removeExecutor name)).1 = m := by
          simp only [ExecutorManager.run, ExecutorManager.removeExecutor, hfind]
        rw [heq]
        exact .unchanged
      · exact .removed hfind

/-! ### Names of the records -/

/-- The record behind an entry of `m_name2Executors` has its name. -/
def Named (m : ExecutorManager) : Prop := ∀ e ∈ m.name2Executors, (m.info e.2).name = e.1

/-- What a call leaves of a record: all but its contracts. -/
structure SameRecord (m m' : ExecutorManager) (p : Nat) : Prop where
  name : (m'.info p).name = (m.info p).name
  executor : (m'.info p).executor = (m.info p).executor

theorem SameRecord.of_info (hinfo : m'.info p = m.info p) : SameRecord m m' p :=
  ⟨by rw [hinfo], by rw [hinfo]⟩

theorem Inv.info_removeExecutor (h : Inv m) (hfind : m.name2Executors.lookup name = some p)
    (q : Nat) : (m.removeExecutor name).1.info q = m.info q := by
  rw [h.removeExecutor_eq hfind]
  rfl

theorem Inv.sameRecord (h : Inv m) {c : Call} (heffect : Effect m c m') (hp : p ∈ m.executors) :
    SameRecord m m' p := by
  cases heffect with
  | unchanged => exact ⟨rfl, rfl⟩
  | @added name executor hname =>
      apply SameRecord.of_info
      rw [info, (addExecutor_eq hname executor).1]
      exact info_append (h.pointers p hp) _
  | @assigned contract r htop hr hnew =>
      have hinfo := info_assign htop (h.findContract_eq_none_iff.mp hnew r hr) (h.pointers r hr) p
      by_cases hpr : p = r
      · subst hpr
        rw [if_pos rfl] at hinfo
        -- the insertion leaves the other fields
        exact ⟨by rw [hinfo]; rfl, by rw [hinfo]; rfl⟩
      · rw [if_neg hpr] at hinfo
        exact .of_info hinfo
  | removed hfind => exact .of_info (h.info_removeExecutor hfind p)

theorem Named.effect (h : Named m) (hinv : Inv m) {c : Call} (heffect : Effect m c m') :
    Named m' := by
  -- an entry is an old one or the new one of `addExecutor`
  have hold : ∀ e ∈ m.name2Executors, (m'.info e.2).name = e.1 := fun e he =>
    (hinv.sameRecord heffect (List.mem_map.mpr ⟨e, he, rfl⟩)).name.trans (h e he)
  intro e he
  cases heffect with
  | unchanged => exact h e he
  | @added name executor hname =>
      obtain ⟨hinfos, hnames, -, -⟩ := addExecutor_eq hname executor
      rw [hnames] at he
      rcases List.mem_append.mp he with he | he
      · exact hold e he
      · rw [List.mem_singleton.mp he, info, hinfos]
        simp
  | @assigned contract r htop hr hnew =>
      rw [(assign_eq htop (hinv.findContract_eq_none_iff.mp hnew r hr)).2.2.1] at he
      exact hold e he
  | removed hfind =>
      apply hold
      rw [hinv.removeExecutor_eq hfind] at he
      exact List.mem_of_mem_filter he

theorem Reachable.named (h : Reachable m) : Named m := by
  induction h with
  | empty => exact fun e he => by cases he
  | call c hm ih => exact ih.effect hm.inv (hm.inv.effect c)
  | rehash _ hperm ih => exact fun e he => ih e (hperm.mem_iff.mp he)

/-! ### Removal -/

/-- A removal takes the executor's own contracts from the map and no others. -/
theorem Inv.findContract_removeExecutor (h : Inv m) (hfind : m.name2Executors.lookup name = some p)
    (contract : String) : (m.removeExecutor name).1.findContract contract
      = if m.findContract contract = some p then none else m.findContract contract := by
  have hinv := (h.removeExecutor hfind).2
  have hiff : ∀ q, (m.removeExecutor name).1.findContract contract = some q ↔
      m.findContract contract = some q ∧ q ≠ p := by
    intro q
    rw [hinv.findContract_eq_some_iff, h.mem_executors_removeExecutor hfind, h.info_removeExecutor hfind,
      h.findContract_eq_some_iff]
    tauto
  apply Option.ext
  intro q
  rw [hiff q]
  split_ifs with howner
  · rw [howner, Option.some_inj]
    constructor
    · rintro ⟨rfl, hne⟩
      exact absurd rfl hne
    · intro hnone
      cases hnone
  · constructor
    · exact fun hq => hq.1
    · intro hq
      refine ⟨hq, ?_⟩
      rintro rfl
      exact howner hq

/-- The same for any name: an unknown one throws and changes nothing. -/
theorem Inv.findContract_run_removeExecutor (h : Inv m) (name contract : String) :
    (m.run (.removeExecutor name)).1.findContract contract
      = if m.findContract contract = m.name2Executors.lookup name then none
        else m.findContract contract := by
  rcases hfind : m.name2Executors.lookup name with _ | p
  · have heq : (m.run (.removeExecutor name)).1 = m := by
      simp only [ExecutorManager.run, ExecutorManager.removeExecutor, hfind]
    rw [heq]
    split_ifs with hnone
    · exact hnone
    · rfl
  · exact h.findContract_removeExecutor hfind contract

/-! ### Sticky assignments -/

/-- An assigned contract stays assigned in every call but the removal of its executor. -/
theorem Inv.findContract_effect (h : Inv m) (hnamed : Named m) {c : Call}
    (heffect : Effect m c m') (howner : m.findContract contract = some p)
    (hkeep : c ≠ .removeExecutor (m.info p).name) : m'.findContract contract = some p := by
  cases heffect with
  | unchanged => exact howner
  | @added name executor hname =>
      rw [findContract, (addExecutor_eq hname executor).2.2.2]
      exact howner
  | assigned htop _ hnew => exact (h.assign_frame htop hnew).2.2 contract p howner
  | @removed name r hfind =>
      rw [h.findContract_removeExecutor hfind, howner, if_neg]
      intro hsame
      obtain rfl := Option.some.inj hsame
      have hentry := (lookup_eq_some_iff h.names).mp hfind
      exact hkeep (by rw [hnamed _ hentry])

/-- Until its executor is removed a contract keeps it. -/
theorem Path.findContract (h : Path m calls m') (hm : Reachable m)
    (howner : m.findContract contract = some p) (hkeep : .removeExecutor (m.info p).name ∉ calls) :
    m'.findContract contract = some p ∧ SameRecord m m' p := by
  induction h with
  | refl => exact ⟨howner, rfl, rfl⟩
  | @call m' calls c hpath ih =>
      rw [List.mem_append, List.mem_singleton, not_or] at hkeep
      obtain ⟨howner', hsame⟩ := ih hkeep.1
      have hm' := hpath.reachable hm
      have hp : p ∈ m'.executors := (hm'.inv.findContract_eq_some_iff.mp howner').1
      have heffect := hm'.inv.effect c
      have hrun := hm'.inv.sameRecord heffect hp
      refine ⟨hm'.inv.findContract_effect hm'.named heffect howner' ?_, hrun.name.trans hsame.name,
        hrun.executor.trans hsame.executor⟩
      rw [hsame.name]
      exact Ne.symm hkeep.2
  | rehash _ _ ih =>
      obtain ⟨howner', hsame⟩ := ih hkeep
      exact ⟨howner', hsame.name, hsame.executor⟩

/-- A further dispatch of an assigned contract changes nothing. -/
theorem Inv.run_dispatchExecutor (h : Inv m) (howner : m.findContract contract = some p) :
    m.run (.dispatchExecutor contract) = (m, .returned (some (m.info p).executor)) := by
  have hne : m.name2Executors ≠ [] := by
    intro hnil
    have hp := (h.findContract_eq_some_iff.mp howner).1
    rw [executors, hnil] at hp
    cases hp
  rw [ExecutorManager.run, dispatchExecutor, if_neg hne, howner]

/-! ### A new contract -/

/-- What a dispatch of a new contract does. -/
structure Assigns (m : ExecutorManager) (contract : String) (p : Nat) : Prop where
  registered : p ∈ m.executors
  least : ∀ q ∈ m.executors, m.load p ≤ m.load q
  returned : (m.run (.dispatchExecutor contract)).2 = .returned (some (m.info p).executor)
  executors : (m.run (.dispatchExecutor contract)).1.executors = m.executors
  findContract : ∀ c, (m.run (.dispatchExecutor contract)).1.findContract c
    = if c = contract then some p else m.findContract c
  keys : (m.run (.dispatchExecutor contract)).1.contract2ExecutorInfo.map Prod.fst
    = m.contract2ExecutorInfo.map Prod.fst ++ [contract]
  raised : (m.run (.dispatchExecutor contract)).1.load p = m.load p + 1
  others : ∀ q, q ≠ p → (m.run (.dispatchExecutor contract)).1.load q = m.load q

theorem Inv.assigns (h : Inv m) (hne : m.name2Executors ≠ [])
    (hnew : m.findContract contract = none) : ∃ p, Assigns m contract p := by
  obtain ⟨p, hp, htop⟩ := h.exists_top hne
  have hrun : m.run (.dispatchExecutor contract) = m.assign contract := by
    rw [ExecutorManager.run, dispatchExecutor, if_neg hne, hnew]
  have hfresh := h.findContract_eq_none_iff.mp hnew p hp
  obtain ⟨hreturned, -, -, -, htable⟩ := assign_eq htop hfresh
  rw [if_neg (lookup_eq_none_iff.mp hnew)] at htable
  obtain ⟨hexecutors, -, hframe⟩ := h.assign_frame htop hnew
  have hinfo := info_assign htop hfresh (h.pointers p hp)
  have hself := h.findContract_assign htop hnew
  have hload : ∀ q, (m.assign contract).1.load q = if q = p then m.load p + 1 else m.load q := by
    intro q
    rw [load, hinfo]
    split_ifs
    · rw [ExecutorInfo.insert, List.orderedInsert_length]
      rfl
    · rfl
  refine ⟨p, hp, fun q hq => h.heap.top_le htop (h.queue.mem_iff.mpr hq), ?_, ?_, ?_, ?_, ?_, ?_⟩
  · rw [hrun, hreturned]
  · rw [hrun, hexecutors]
  · intro c
    rw [hrun]
    split_ifs with hc
    · rw [hc, hself]
    · apply Option.ext
      intro q
      constructor
      · intro hq
        rw [ExecutorManager.findContract, lookup_eq_some_iff (h.assign htop hnew).keys, htable] at hq
        rcases List.mem_append.mp hq with hq | hq
        · rwa [ExecutorManager.findContract, lookup_eq_some_iff h.keys]
        · exact absurd (congrArg Prod.fst (List.mem_singleton.mp hq)) hc
      · exact hframe c q
  · rw [hrun, htable, List.map_append]
    rfl
  · rw [hrun, hload, if_pos rfl]
  · intro q hq
    rw [hrun, hload, if_neg hq]

/-! ### Balance -/

/-- The loads add up to the number of assigned contracts. -/
theorem Inv.sum_load (h : Inv m) :
    (m.executors.map m.load).sum = m.contract2ExecutorInfo.length := by
  have hnodup : (m.executors.flatMap fun p => (m.info p).contracts.map fun c => (c, p)).Nodup := by
    rw [List.nodup_flatMap]
    constructor
    · intro p hp
      exact (h.sets p hp).map fun c c' heq => congrArg Prod.fst heq
    · apply h.distinct.imp
      intro p q hpq e he he'
      obtain ⟨c, -, rfl⟩ := List.mem_map.mp he
      obtain ⟨c', -, heq⟩ := List.mem_map.mp he'
      exact hpq (congrArg Prod.snd heq).symm
  have hperm : (m.executors.flatMap fun p => (m.info p).contracts.map fun c => (c, p)).Perm
      m.contract2ExecutorInfo := by
    rw [List.perm_ext_iff_of_nodup hnodup h.keys.of_map]
    rintro ⟨c, p⟩
    rw [h.maps, List.mem_flatMap]
    constructor
    · rintro ⟨q, hq, hmem⟩
      obtain ⟨c', hc', heq⟩ := List.mem_map.mp hmem
      cases heq
      exact ⟨hq, hc'⟩
    · rintro ⟨hp, hc⟩
      exact ⟨p, hp, List.mem_map.mpr ⟨c, hc, rfl⟩⟩
  rw [← hperm.length_eq, List.length_flatMap]
  simp only [List.length_map]
  rfl

/-- The assigned contracts. -/
def assigned (m : ExecutorManager) : List String := m.contract2ExecutorInfo.map Prod.fst

/-- What dispatches keep: the executors, their balance, and who is assigned. -/
structure Dispatched (m : ExecutorManager) (contracts : List String) (m' : ExecutorManager) :
    Prop where
  executors : m'.executors.Perm m.executors
  balanced : BalancedLoad m'.load m'.executors
  assigned : ∀ c, c ∈ m'.assigned ↔ c ∈ contracts

theorem Dispatched.dispatchExecutor {contracts : List String} (h : Dispatched m contracts m')
    (hinv : Inv m') (hne : m'.name2Executors ≠ []) (contract : String) :
    Dispatched m (contracts ++ [contract]) (m'.run (.dispatchExecutor contract)).1 := by
  rcases hfind : m'.findContract contract with _ | p
  · obtain ⟨p, hassigns⟩ := hinv.assigns hne hfind
    refine ⟨?_, ?_, ?_⟩
    · rw [hassigns.executors]
      exact h.executors
    · rw [hassigns.executors]
      exact h.balanced.raise hassigns.least hassigns.raised fun q _ hq => hassigns.others q hq
    · intro c
      rw [ExecutorManager.assigned, hassigns.keys, List.mem_append, List.mem_append]
      exact or_congr (h.assigned c) Iff.rfl
  · rw [hinv.run_dispatchExecutor hfind]
    refine ⟨h.executors, h.balanced, fun c => ?_⟩
    have hmem : contract ∈ m'.assigned := by
      by_contra hnot
      rw [ExecutorManager.findContract, lookup_eq_none_iff.mpr hnot] at hfind
      cases hfind
    rw [h.assigned, List.mem_append, List.mem_singleton]
    constructor
    · exact Or.inl
    · rintro (hc | rfl)
      · exact hc
      · exact (h.assigned c).mp hmem

/-- Dispatches from idle executors. -/
theorem Path.dispatched (h : Path m calls m') (hm : Reachable m) (hne : m.name2Executors ≠ [])
    (hidle : ∀ p ∈ m.executors, m.load p = 0) :
    ∀ {contracts : List String}, calls = contracts.map .dispatchExecutor →
      Dispatched m contracts m' := by
  induction h with
  | refl =>
      intro contracts hcalls
      obtain rfl := List.map_eq_nil_iff.mp hcalls.symm
      refine ⟨.refl _, .of_zero hidle, fun c => ?_⟩
      simp only [List.not_mem_nil, iff_false]
      intro hc
      obtain ⟨⟨c, p⟩, he, -⟩ := List.mem_map.mp hc
      obtain ⟨hp, hmem⟩ := (hm.inv.maps c p).mp he
      have hnil := List.eq_nil_of_length_eq_zero (hidle p hp)
      rw [hnil] at hmem
      cases hmem
  | call c hpath ih =>
      intro contracts hcalls
      obtain ⟨before, last, rfl, hbefore, hlast⟩ := List.map_eq_append_iff.mp hcalls.symm
      obtain ⟨contract, rfl, rfl⟩ := List.map_eq_singleton_iff.mp hlast
      have hdispatched := ih hbefore.symm
      apply hdispatched.dispatchExecutor (hpath.reachable hm).inv
      intro hnil
      have hperm := hdispatched.executors
      rw [executors, hnil] at hperm
      exact hne (List.map_eq_nil_iff.mp hperm.nil_eq.symm)
  | rehash hpath hperm ih =>
      intro contracts hcalls
      have hdispatched := ih hcalls
      have hsame := hperm.map Prod.snd
      refine ⟨hsame.trans hdispatched.executors, ?_, hdispatched.assigned⟩
      intro p hp q hq
      exact hdispatched.balanced p (hsame.mem_iff.mp hp) q (hsame.mem_iff.mp hq)

/-- **Sticky and balanced routing.**  After any sequence of calls: an assigned contract
gets the same executor until that is removed; a removal changes the assignments of its
own contracts only; a new contract goes to a least loaded executor; and dispatches to
idle executors leave each with the average number of contracts, rounded down or up. -/
theorem sticky_and_balanced (hm : Reachable m) :
    (∀ contract p calls m', m.findContract contract = some p → Path m calls m' →
      .removeExecutor (m.info p).name ∉ calls →
      m'.run (.dispatchExecutor contract) = (m', .returned (some (m.info p).executor))) ∧
    (∀ name contract, (m.run (.removeExecutor name)).1.findContract contract
      = if m.findContract contract = m.name2Executors.lookup name then none
        else m.findContract contract) ∧
    (∀ contract, m.name2Executors ≠ [] → m.findContract contract = none →
      ∃ p ∈ m.executors, (∀ q ∈ m.executors, m.load p ≤ m.load q) ∧
        (m.run (.dispatchExecutor contract)).2 = .returned (some (m.info p).executor) ∧
        ∀ c, (m.run (.dispatchExecutor contract)).1.findContract c
          = if c = contract then some p else m.findContract c) ∧
    (∀ (contracts : List String) m', m.name2Executors ≠ [] → (∀ p ∈ m.executors, m.load p = 0) →
      Path m (contracts.map .dispatchExecutor) m' →
      m'.executors.Perm m.executors ∧ ∀ p ∈ m'.executors,
        m'.load p = contracts.dedup.length / m.executors.length ∨
        m'.load p = (contracts.dedup.length + m.executors.length - 1) / m.executors.length) := by
  refine ⟨?_, fun name contract => hm.inv.findContract_run_removeExecutor name contract, ?_, ?_⟩
  · intro contract p calls m' howner hpath hkeep
    obtain ⟨howner', hsame⟩ := hpath.findContract hm howner hkeep
    rw [(hpath.reachable hm).inv.run_dispatchExecutor howner', hsame.executor]
  · intro contract hne hnew
    obtain ⟨p, hassigns⟩ := hm.inv.assigns hne hnew
    exact ⟨p, hassigns.registered, hassigns.least, hassigns.returned, hassigns.findContract⟩
  · intro contracts m' hne hidle hpath
    have hdispatched := hpath.dispatched hm hne hidle rfl
    have hinv := (hpath.reachable hm).inv
    have hcount : (m'.executors.map m'.load).sum = contracts.dedup.length := by
      have hperm : m'.assigned.Perm contracts.dedup := by
        have hkeys : m'.assigned.Nodup := hinv.keys
        rw [List.perm_ext_iff_of_nodup hkeys contracts.nodup_dedup]
        intro c
        rw [hdispatched.assigned, List.mem_dedup]
      rw [hinv.sum_load, ← hperm.length_eq, assigned, List.length_map]
    refine ⟨hdispatched.executors, fun p hp => ?_⟩
    rw [← hcount, ← hdispatched.executors.length_eq]
    exact hdispatched.balanced.floor_or_ceil hp

/-- The state after the calls. -/
def runAll (m : ExecutorManager) (calls : List Call) : ExecutorManager :=
  calls.foldl (fun m c => (m.run c).1) m

theorem path_runAll (m : ExecutorManager) (calls : List Call) : Path m calls (m.runAll calls) := by
  induction calls using List.reverseRecOn with
  | nil => exact .refl
  | append_singleton calls c ih =>
      rw [runAll, List.foldl_append]
      exact .call c ih

/-- Three contracts for two executors. -/
theorem sticky_and_balanced_two :
    let m' := twoExecutors.runAll (["a", "b", "c", "a"].map .dispatchExecutor)
    (∀ p ∈ m'.executors, m'.load p = 1 ∨ m'.load p = 2) ∧
      m'.run (.dispatchExecutor "a") = (m', .returned (some 1)) := by
  have hpath := path_runAll twoExecutors (["a", "b", "c", "a"].map .dispatchExecutor)
  have hafter := sticky_and_balanced
    (Reachable.call (.dispatchExecutor "a") twoExecutors_reachable)
  constructor
  · exact ((sticky_and_balanced twoExecutors_reachable).2.2.2 ["a", "b", "c", "a"] _ (by decide)
      (by decide) hpath).2
  · exact hafter.1 "a" 0 (["b", "c", "a"].map .dispatchExecutor) _ (by decide)
      (path_runAll _ _) (by decide)

end ExecutorManager

end BcosScheduler
